import GwOS.Userprog.LoadMemory

/-!
# Runs of the loader

What a list of steps does to the memory of a process is worked out from the memory before:
which pages are new, which frames they get, and which byte was copied last to an address.
`Loading` says that the memory is as worked out; each step keeps it or fails in a known way.

The loader is harmless when it returns and has written nothing of the kernel's but its page
tables. `load_harmless_iff` says which files and states make it so.
-/

namespace GwOS

/-! ## What the steps amount to -/

/-- The entry of the directory that a page depends on. -/
def pageDir (q : BitVec 20) : BitVec 10 := dirIdx (addrOf q 0)

/-- Whether the page of `v` is there once the process has got the pages `N`. Its page tables
show up in the last four megabytes. -/
def There (base : Machine) (N : List (BitVec 20)) (v : Addr) : Prop :=
  base.walk v ≠ none ∨ pageOf v ∈ N ∨ dirIdx v = 1023 ∧ tabIdx v ∈ N.map pageDir

instance (base : Machine) (N : List (BitVec 20)) (v : Addr) : Decidable (There base N v) :=
  inferInstanceAs (Decidable (_ ∨ _))

/-- The new pages after one more step. -/
def LoadOp.newPage (base : Machine) (N : List (BitVec 20)) : LoadOp → List (BitVec 20)
  | .page v => if There base N v then N else N ++ [pageOf v]
  | .copy _ _ => N

/-- The pages that the steps add, in their order. -/
def newPages (base : Machine) (ops : List LoadOp) : List (BitVec 20) :=
  ops.foldl (LoadOp.newPage base) []

/-- The entries of the directory that get a table. -/
def newTables (base : Machine) (N : List (BitVec 20)) : Finset (BitVec 10) :=
  (N.map pageDir).toFinset.filter fun i => ¬ Present (base.mem base.cr3 i)

/-- The pool after `palloc`. -/
def afterPalloc (p : Pool) : Pool := ((palloc p).toOption.map Prod.snd).getD p

/-- The frame that `palloc` gives out after it has been called `i` times. -/
def givenFrame (p : Pool) (i : Nat) : Option Frame :=
  ((palloc (afterPalloc^[i] p)).toOption.bind Prod.fst).map pageOf

/-- The frame of a page of the process once it has got the pages `N`. -/
def pageFrame (base : Memory) (N : List (BitVec 20)) (v : Addr) : Option Frame :=
  match base.walk v with
  | some f => some f
  | none => if pageOf v ∈ N then givenFrame base.userPool (N.idxOf (pageOf v)) else none

/-- The byte that a step stores at an address. -/
def LoadOp.byteFor (a : Addr) : LoadOp → Option UInt8
  | .page _ => none
  | .copy dst bytes => bytes[(a - dst).toNat]?

/-- The byte that is stored last at an address. -/
def lastCopied (ops : List LoadOp) (a : Addr) : Option UInt8 :=
  ops.foldl (fun b op => (op.byteFor a).or b) none

/-- Nothing is written above the user, but page tables from the kernel pool. -/
def LoadWrite.Harmless (base : Memory) : LoadWrite → Prop
  | .byte a => a < 0xc0000000
  | .entry table => base.kernelPool.Contains table

/-- There is a page table for the page, or a frame for one. -/
def TableFor (base : Memory) (N : List (BitVec 20)) (v : Addr) : Prop :=
  Present (base.pde v) ∨ dirIdx v ∈ N.map pageDir ∨
    (newTables base.toMachine N).card < base.kernelPool.spare.card

/-- A step that is taken when the process has got the pages `N`: a page is there or belongs to
the process, and bytes go to pages of the process that are there. If a frame is left for the
page, it has a table. -/
def LoadOp.Allowed (base : Memory) (N : List (BitVec 20)) : LoadOp → Prop
  | .page v => There base.toMachine N v ∨
      UserPage v ∧ (N.length < base.userPool.spare.card → TableFor base N v)
  | .copy dst bytes => ∀ p < bytes.length, dst + BitVec.ofNat 32 p < 0xc0000000 ∧
      There base.toMachine N (dst + BitVec.ofNat 32 p)

/-- Each step is allowed that is come to, that is, unless there was no frame for an earlier
page. -/
def SafeSteps (base : Memory) (done ops : List LoadOp) : Prop :=
  ∀ d op rest, ops = d ++ op :: rest →
    (newPages base.toMachine (done ++ d)).length ≤ base.userPool.spare.card →
    op.Allowed base (newPages base.toMachine (done ++ d))

section Plan

variable {base : Machine} {N : List (BitVec 20)} {ops done : List LoadOp} {op : LoadOp} {v a : Addr}
  {p p' : Pool}

theorem newPages_snoc (base : Machine) (done : List LoadOp) (op : LoadOp) :
    newPages base (done ++ [op]) = op.newPage base (newPages base done) := by
  rw [newPages, List.foldl_append]
  rfl

theorem lastCopied_snoc (done : List LoadOp) (op : LoadOp) (a : Addr) :
    lastCopied (done ++ [op]) a = (op.byteFor a).or (lastCopied done a) := by
  rw [lastCopied, List.foldl_append]
  rfl

theorem newPages_extend (base : Machine) (done ops : List LoadOp) :
    newPages base done <+: newPages base (done ++ ops) := by
  induction ops generalizing done with
  | nil => rw [List.append_nil]
  | cons op ops ih =>
    have hstep : newPages base done <+: newPages base (done ++ [op]) := by
      rw [newPages_snoc]
      cases op with
      | page v =>
        rw [LoadOp.newPage]
        split
        · exact List.prefix_rfl
        · exact List.prefix_append _ _
      | copy dst bytes => exact List.prefix_rfl
    rw [List.append_cons]
    exact hstep.trans (ih _)

theorem newTables_mono {N' : List (BitVec 20)} (h : N ⊆ N') : newTables base N ⊆ newTables base N' := by
  refine Finset.filter_subset_filter _ fun i hi => ?_
  rw [List.mem_toFinset] at hi ⊢
  exact List.map_subset _ h hi

theorem afterPalloc_eq {r : Option Addr} (h : palloc p = .ok (r, p')) : afterPalloc p = p' := by
  rw [afterPalloc, h]
  rfl

/-- A statement about the splits of a list, for one more element in front. -/
theorem safeSteps_cons {base : Memory} : SafeSteps base done (op :: ops) ↔
    ((newPages base.toMachine done).length ≤ base.userPool.spare.card →
      op.Allowed base (newPages base.toMachine done)) ∧ SafeSteps base (done ++ [op]) ops := by
  constructor
  · intro h
    refine ⟨fun hle => ?_, fun d op' rest he hle => ?_⟩
    · have hfirst := h [] op ops rfl
      rw [List.append_nil] at hfirst
      exact hfirst hle
    · have hnext := h (op :: d) op' rest (congrArg (op :: ·) he)
      rw [List.append_cons] at hnext
      exact hnext hle
  · rintro ⟨hfirst, hrest⟩ d op' rest he hle
    cases d with
    | nil =>
      obtain ⟨rfl, -⟩ := List.cons_eq_cons.mp he
      rw [List.append_nil] at hle ⊢
      exact hfirst hle
    | cons op1 d =>
      obtain ⟨rfl, htail⟩ := List.cons_eq_cons.mp he
      rw [List.append_cons] at hle ⊢
      exact hrest d op' rest htail hle

end Plan

/-! ## The invariant -/

/-- The memory `s` is what the steps `done` make of `base`. -/
structure Loading (base : Memory) (threads : List Addr) (D : Frame → Prop) (g : VPage → Frame)
    (H : List VPage) (done : List LoadOp) (s : LoadState) : Prop where
  tracked : ∃ L, Tracked s.toMemory threads D g L H
  space : s.WholeSpace
  cr3 : s.cr3 = base.cr3
  user : ∀ v, pageOf v ∈ newPages base.toMachine done → v < 0xc0000000
  given : ∀ i < (newPages base.toMachine done).length, givenFrame base.userPool i ≠ none
  walk : ∀ v, v < 0xc0000000 → s.walk v = pageFrame base (newPages base.toMachine done) v
  high : ∀ v, 0xc0000000 ≤ v → dirIdx v ≠ 1023 → s.walk v = base.walk v
  dir : ∀ i, Present (s.mem s.cr3 i) ↔
    Present (base.mem base.cr3 i) ∨ i ∈ (newPages base.toMachine done).map pageDir
  pool : s.userPool = afterPalloc^[(newPages base.toMachine done).length] base.userPool
  userCard : s.userPool.spare.card + (newPages base.toMachine done).length = base.userPool.spare.card
  kernelCard : s.kernelPool.spare.card + (newTables base.toMachine (newPages base.toMachine done)).card =
    base.kernelPool.spare.card
  kernelRange : base.kernelPool.SameRange s.kernelPool
  fresh : ∀ f, s.userPool.Contains f → ¬ s.Taken f → s.mem f = base.mem f
  bytes : ∀ v, v < 0xc0000000 → ∀ f, s.walk v = some f →
    s.byteAt v = some ((lastCopied done v).getD (pageByte (base.mem f) v))
  copied : ∀ v, lastCopied done v ≠ none → v < 0xc0000000 ∧ s.walk v ≠ none
  entries : ∀ t, .entry t ∈ s.writes → base.kernelPool.Contains t

section Invariant

variable {base : Memory} {s : LoadState} {threads : List Addr} {D : Frame → Prop} {g : VPage → Frame}
  {L H : List VPage} {ops done : List LoadOp} {op : LoadOp} {v dst : Addr} {bytes : List UInt8}

theorem Loading.start (h : Tracked base threads D g L H) (hw : base.WholeSpace) :
    Loading base threads D g H [] ⟨base, []⟩ := by
  refine ⟨⟨L, h⟩, hw, rfl, nofun, nofun, fun v _ => ?_, fun _ _ _ => rfl, fun i => ?_, rfl, rfl, ?_,
    ⟨rfl, rfl, rfl⟩, fun _ _ _ => rfl, fun v _ f hf => ?_, fun _ hne => absurd rfl hne, nofun⟩
  · show base.walk v = pageFrame base [] v
    rw [pageFrame]
    cases hf : base.walk v with
    | none => rfl
    | some f => rfl
  · exact (or_iff_left List.not_mem_nil).symm
  · rfl
  · show base.byteAt v = some (pageByte (base.mem f) v)
    rw [Machine.byteAt, show base.walk v = some f from hf]
    rfl

/-- Which pages are there. -/
theorem Loading.there (h : Loading base threads D g H done s) (hb : SelfMapped base.toMachine) (v : Addr) :
    s.walk v ≠ none ↔ There base.toMachine (newPages base.toMachine done) v := by
  obtain ⟨L, ht⟩ := h.tracked
  rw [There]
  by_cases hwin : dirIdx v = 1023
  · -- a table of the process
    have hnot : pageOf v ∉ newPages base.toMachine done := fun hmem => by
      have hlow := dirIdx_lt_of_low (h.user v hmem)
      rw [hwin] at hlow
      exact absurd hlow (by decide)
    have hwalk : ∀ {m : Machine}, SelfMapped m → (m.walk v ≠ none ↔ Present (m.mem m.cr3 (tabIdx v))) := by
      intro m hm
      rw [hm.walk_window hwin]
      split
      · next hp => exact ⟨fun _ => hp, fun _ => Option.some_ne_none _⟩
      · next hp => exact ⟨fun hne => absurd rfl hne, fun hp' => absurd hp' hp⟩
    rw [hwalk (ht.managed.layout.selfMapped ht.managed.active), hwalk hb, h.dir]
    exact or_congr_right ⟨fun hi => .inr ⟨hwin, hi⟩, fun hi => (hi.resolve_left hnot).2⟩
  · rw [or_congr_right (or_iff_left fun hi => hwin hi.1)]
    by_cases hlow : v < 0xc0000000
    · rw [h.walk v hlow, pageFrame]
      cases hf : base.walk v with
      | some f => exact ⟨fun _ => .inl (Option.some_ne_none f), fun _ => Option.some_ne_none f⟩
      | none =>
        by_cases hmem : pageOf v ∈ newPages base.toMachine done
        · rw [if_pos hmem]
          exact ⟨fun _ => .inr hmem, fun _ => h.given _ (List.idxOf_lt_length_iff.mpr hmem)⟩
        · rw [if_neg hmem]
          exact ⟨fun hne => absurd rfl hne, fun hor => hor.elim (absurd rfl) fun hm => absurd hm hmem⟩
    · rw [h.high v (BitVec.not_lt.mp hlow) hwin]
      exact (or_iff_left fun hmem => hlow (h.user v hmem)).symm

/-- The test of `segment_load` tells whether the page is there. -/
theorem pageThere_eq {m : Machine} (hm : SelfMapped m) (v : Addr) :
    pageThere m v = .ok (decide (m.walk v ≠ none)) := by
  rw [pageThere, hm.load_pdePtr]
  show (if Present (m.pde v) then _ else _) = _
  rw [Machine.walk]
  by_cases hp : Present (m.pde v)
  · rw [if_pos hp, hm.load_ptePtr hp]
    by_cases hp' : Present (m.pte v)
    · simp [hp, hp', bind, Except.bind]
    · simp [hp', bind, Except.bind]
  · simp [hp]

/-! ## A page -/

/-- A step after which there are no more pages and no more bytes. -/
theorem Loading.skip (h : Loading base threads D g H done s)
    (hN : newPages base.toMachine (done ++ [op]) = newPages base.toMachine done)
    (hc : ∀ a, op.byteFor a = none) : Loading base threads D g H (done ++ [op]) s := by
  have hlast : lastCopied (done ++ [op]) = lastCopied done := by
    funext a
    rw [lastCopied_snoc, hc, Option.none_or]
  refine ⟨h.tracked, h.space, h.cr3, ?_, ?_, ?_, h.high, ?_, ?_, ?_, ?_, h.kernelRange, h.fresh, ?_,
    ?_, h.entries⟩
  · rw [hN]
    exact h.user
  · rw [hN]
    exact h.given
  · rw [hN]
    exact h.walk
  · rw [hN]
    exact h.dir
  · rw [hN]
    exact h.pool
  · rw [hN]
    exact h.userCard
  · rw [hN]
    exact h.kernelCard
  · rw [hlast]
    exact h.bytes
  · rw [hlast]
    exact h.copied

theorem Loading.page_there (h : Loading base threads D g H done s) (hb : SelfMapped base.toMachine)
    (hv : There base.toMachine (newPages base.toMachine done) v) :
    mapPage s v = .ok (true, s) ∧ Loading base threads D g H (done ++ [.page v]) s := by
  obtain ⟨L, ht⟩ := h.tracked
  constructor
  · rw [mapPage, pageThere_eq (ht.managed.layout.selfMapped ht.managed.active),
      decide_eq_true ((h.there hb v).mpr hv)]
    rfl
  · refine h.skip ?_ fun _ => rfl
    rw [newPages_snoc, LoadOp.newPage, if_pos hv]

/-- A page that is not there is asked for. -/
theorem Loading.mapPage_eq (h : Loading base threads D g H done s) (hb : SelfMapped base.toMachine)
    (hv : ¬ There base.toMachine (newPages base.toMachine done) v) : mapPage s v = (do
      let (page, m) ← getOnePage s.toMemory .user v
      if page.getD 0 = 0 then .ok (false, { s with toMemory := m })
      else .ok (true, ⟨m, s.writes ++ [.entry (m.tableOf v)]⟩)) := by
  obtain ⟨L, ht⟩ := h.tracked
  rw [mapPage, pageThere_eq (ht.managed.layout.selfMapped ht.managed.active),
    decide_eq_false (mt (h.there hb v).mp hv)]
  rfl

/-- `get_one_page` does not return for a page outside of the process: an `ASSERT` fails, or the
bit is outside of the bitmap. -/
theorem Tracked.getOnePage_outside {m : Memory} (h : Tracked m threads D g L H) (hw : m.WholeSpace)
    (hv : ¬ UserPage v) : ∃ e, GwOS.getOnePage m .user v = .error e := by
  obtain ⟨p, hp⟩ := Option.ne_none_iff_exists'.mp h.process
  unfold GwOS.getOnePage
  rw [hp]
  show ∃ e, (if m.vaddrStart .user ≤ v then markPage m .user v >>= fun s => getOnePageNoBitmap s .user v
    else .error .assert) = .error e
  by_cases hle : m.vaddrStart .user ≤ v
  · rw [if_pos hle]
    rw [hw.start] at hle
    cases hmark : markPage m .user v with
    | error e => exact ⟨e, rfl⟩
    | ok m1 =>
      obtain ⟨mp, hset, -⟩ := bind_eq_ok.mp hmark
      obtain ⟨hidx, -⟩ := bitmapSetIdx_returns (m.vaddrBitmap .user) _ true mp hset
      rw [hw.start, hw.len] at hidx
      exact absurd ⟨hle, (pageIdx_lt_iff hle).mp hidx⟩ hv
  · rw [if_neg hle]
    exact ⟨_, rfl⟩

theorem Loading.page_outside (h : Loading base threads D g H done s) (hb : SelfMapped base.toMachine)
    (hth : ¬ There base.toMachine (newPages base.toMachine done) v) (hv : ¬ UserPage v) :
    ∃ e, mapPage s v = .error e := by
  obtain ⟨L, ht⟩ := h.tracked
  obtain ⟨e, he⟩ := ht.getOnePage_outside h.space hv
  rw [h.mapPage_eq hb hth, he]
  exact ⟨e, rfl⟩

theorem pageDir_pageOf (v : Addr) : pageDir (pageOf v) = dirIdx v := by
  rw [pageDir, dirIdx_eq, pageOf_addrOf, dirIdx_eq]

/-- The pages below the kernel are whole pages. -/
theorem low_of_pageOf {w : Addr} (he : pageOf w = pageOf v) (hv : v < 0xc0000000) : w < 0xc0000000 := by
  have hnat := congrArg BitVec.toNat he
  rw [pageOf_toNat, pageOf_toNat] at hnat
  have hv' : v.toNat < 0xc0000000 := hv
  show w.toNat < 0xc0000000
  omega

/-- One more table, if there was none. -/
theorem newTables_snoc (m : Machine) (N : List (BitVec 20)) (v : Addr) :
    (newTables m (N ++ [pageOf v])).card = (newTables m N).card +
      if Present (m.mem m.cr3 (dirIdx v)) ∨ dirIdx v ∈ N.map pageDir then 0 else 1 := by
  have hset : newTables m (N ++ [pageOf v]) =
      if Present (m.mem m.cr3 (dirIdx v)) then newTables m N
      else insert (dirIdx v) (newTables m N) := by
    ext i
    by_cases hp : Present (m.mem m.cr3 (dirIdx v))
    · rw [if_pos hp]
      simp only [newTables, List.map_append, List.map_singleton, pageDir_pageOf, Finset.mem_filter,
        List.mem_toFinset, List.mem_append, List.mem_singleton]
      exact ⟨fun h => ⟨h.1.resolve_right fun he => h.2 (he ▸ hp), h.2⟩, fun h => ⟨.inl h.1, h.2⟩⟩
    · rw [if_neg hp, Finset.mem_insert]
      simp only [newTables, List.map_append, List.map_singleton, pageDir_pageOf, Finset.mem_filter,
        List.mem_toFinset, List.mem_append, List.mem_singleton]
      constructor
      · rintro ⟨hi | rfl, hni⟩
        · exact .inr ⟨hi, hni⟩
        · exact .inl rfl
      · rintro (rfl | ⟨hi, hni⟩)
        · exact ⟨.inr rfl, hp⟩
        · exact ⟨.inl hi, hni⟩
  rw [hset]
  by_cases hp : Present (m.mem m.cr3 (dirIdx v))
  · rw [if_pos hp, if_pos (.inl hp), Nat.add_zero]
  · rw [if_neg hp]
    by_cases hmem : dirIdx v ∈ N.map pageDir
    · rw [if_pos (.inr hmem), Finset.insert_eq_of_mem, Nat.add_zero]
      exact Finset.mem_filter.mpr ⟨List.mem_toFinset.mpr hmem, hp⟩
    · rw [if_neg (not_or.mpr ⟨hp, hmem⟩), Finset.card_insert_of_notMem]
      exact fun hi => hmem (List.mem_toFinset.mp (Finset.mem_filter.mp hi).1)

/-- One more page gets the next frame that the pool gives out. -/
theorem pageFrame_snoc {N : List (BitVec 20)} (hnone : base.walk v = none) (hmem : pageOf v ∉ N)
    (w : Addr) : pageFrame base (N ++ [pageOf v]) w =
      if pageOf w = pageOf v then givenFrame base.userPool N.length else pageFrame base N w := by
  by_cases he : pageOf w = pageOf v
  · have hidx : (N ++ [pageOf v]).idxOf (pageOf v) = N.length := by
      rw [List.idxOf_append_of_notMem hmem, List.idxOf_cons_self, Nat.add_zero]
    rw [if_pos he, pageFrame, (base.walk_eq_of_pageOf he).trans hnone, he]
    dsimp only
    rw [if_pos (List.mem_append_right _ (List.mem_singleton.mpr rfl)), hidx]
  · rw [if_neg he, pageFrame, pageFrame]
    cases base.walk w with
    | some f => rfl
    | none =>
      dsimp only
      by_cases hold : pageOf w ∈ N
      · rw [if_pos hold, if_pos (List.mem_append_left _ hold), List.idxOf_append_of_mem hold]
      · rw [if_neg hold, if_neg fun hmem' => (List.mem_append.mp hmem').elim hold fun hs =>
          he (List.mem_singleton.mp hs)]

/-- A page has been mapped. -/
theorem Loading.mapped (h : Loading base threads D g H done s)
    (hth : ¬ There base.toMachine (newPages base.toMachine done) v) (hv : UserPage v) {a : Addr}
    {m : Memory} (hpal : palloc s.userPool = .ok (some a, m.userPool)) (ht : Tracked m threads D g L H)
    (hw : m.WholeSpace) (hm : PageMapped s.toMemory m v a) :
    Loading base threads D g H (done ++ [.page v]) ⟨m, s.writes ++ [.entry (m.tableOf v)]⟩ := by
  have hN : newPages base.toMachine (done ++ [.page v]) = newPages base.toMachine done ++ [pageOf v] := by
    rw [newPages_snoc, LoadOp.newPage, if_neg hth]
  obtain ⟨hbase, hnot⟩ := not_or.mp hth
  have hbase := not_not.mp hbase
  have hmem : pageOf v ∉ newPages base.toMachine done := fun hmem => hnot (.inl hmem)
  obtain ⟨L0, ht0⟩ := h.tracked
  -- the frame is the next one of the user pool, and has not been written
  obtain ⟨-, htook⟩ := palloc_took ht0.managed.layout.userOk hpal
  have hlast : lastCopied (done ++ [.page v]) = lastCopied done := by
    funext a
    rw [lastCopied_snoc]
    exact Option.none_or
  have hgiven : givenFrame base.userPool (newPages base.toMachine done).length = some (pageOf a) := by
    rw [givenFrame, ← h.pool, hpal]
    rfl
  have hpde : Present (s.pde v) ↔
      Present (base.mem base.cr3 (dirIdx v)) ∨ dirIdx v ∈ (newPages base.toMachine done).map pageDir :=
    h.dir (dirIdx v)
  have hframe : m.walk v = some (pageOf a) := hm.walk
  have hfree : m.mem (pageOf a) = base.mem (pageOf a) := by
    have hcon : s.userPool.Contains (pageOf a) := htook.contains
    have hnt : ¬ s.Taken (pageOf a) := ht0.managed.layout.not_taken
      (show (s.pool .user).Took m.userPool (pageOf a) from htook)
    exact (hm.free _ hcon hnt).trans (h.fresh _ hcon hnt)
  -- only the page of `v` is another one
  have hsame : ∀ w, pageOf w = pageOf v → m.walk w = some (pageOf a) := fun w he =>
    (m.walk_eq_of_pageOf he).trans hframe
  have hother : ∀ w, w < 0xc0000000 → pageOf w ≠ pageOf v → m.walk w = s.walk w := fun w hlow hne =>
    hm.other w (dirIdx_ne_of_low (dirIdx_lt_of_low hlow)) hne
  refine ⟨⟨L, ht⟩, hw, hm.cr3.trans h.cr3, ?_, ?_, ?_, ?_, ?_, ?_, ?_, ?_, ?_, ?_, ?_, ?_, ?_⟩
  · intro w hw'
    rw [hN] at hw'
    rcases List.mem_append.mp hw' with hold | hnew
    · exact h.user w hold
    · exact low_of_pageOf (List.mem_singleton.mp hnew) hv.2
  · intro i hi
    rw [hN, List.length_append, List.length_singleton] at hi
    by_cases hlt : i < (newPages base.toMachine done).length
    · exact h.given i hlt
    · obtain rfl : i = (newPages base.toMachine done).length := by omega
      rw [hgiven]
      exact Option.some_ne_none _
  · intro w hlow
    show m.walk w = _
    rw [hN, pageFrame_snoc hbase hmem]
    by_cases he : pageOf w = pageOf v
    · rw [if_pos he, hsame w he, hgiven]
    · rw [if_neg he, hother w hlow he]
      exact h.walk w hlow
  · intro w hhigh hwin
    refine (hm.other w hwin fun he => ?_).trans (h.high w hhigh hwin)
    exact absurd hhigh (BitVec.not_le.mpr (low_of_pageOf he hv.2))
  · intro i
    rw [hN, List.map_append, List.map_singleton, pageDir_pageOf, List.mem_append, List.mem_singleton,
      ← or_assoc, ← h.dir i]
    exact hm.dir i
  · rw [hN, List.length_append, List.length_singleton, Function.iterate_succ_apply', ← h.pool,
      afterPalloc_eq hpal]
  · have hcard := palloc_card ht0.managed.layout.userOk hpal
    have hold := h.userCard
    rw [hN, List.length_append, List.length_singleton]
    show m.userPool.spare.card + _ = _
    omega
  · -- a table has been taken exactly when the entry of the directory was not present
    have hold := h.kernelCard
    rw [hN, newTables_snoc]
    show m.kernelPool.spare.card + _ = _
    by_cases hp : Present (s.pde v)
    · rw [if_pos (hpde.mp hp), hm.here hp]
      exact hold
    · have hnew := hm.new hp
      rw [if_neg (mt hpde.mpr hp)]
      omega
  · obtain ⟨h1, h2, h3⟩ := h.kernelRange
    obtain ⟨h1', h2', h3'⟩ := hm.kernelRange
    exact ⟨h1'.trans h1, h2'.trans h2, h3'.trans h3⟩
  · -- what is still free has been free all the time
    intro f hf hnf
    have hf' : s.userPool.Contains f := (hm.userRange.contains f).mp hf
    have hnf' : ¬ s.Taken f := fun htk => hnf (hm.taken f htk)
    exact (hm.free f hf' hnf').trans (h.fresh f hf' hnf')
  · intro w hlow f hf
    have hf' : m.walk w = some f := hf
    show m.byteAt w = _
    rw [Machine.byteAt, hf', Option.map_some, hlast]
    by_cases he : pageOf w = pageOf v
    · -- nothing has been copied to the page before it was there
      have hnone : lastCopied done w = none := by
        by_contra hne
        refine (h.copied w hne).2 ?_
        rw [h.walk w hlow, pageFrame, (base.walk_eq_of_pageOf he).trans hbase]
        dsimp only
        rw [if_neg (he ▸ hmem)]
      rw [hsame w he] at hf'
      cases hf'
      rw [hfree, hnone]
      rfl
    · rw [hother w hlow he] at hf'
      have hold := h.bytes w hlow f hf'
      rw [Machine.byteAt, hf', Option.map_some] at hold
      rw [hm.data w f hlow hf']
      exact hold
  · intro w hne
    rw [hlast] at hne
    obtain ⟨hlow, hold⟩ := h.copied w hne
    refine ⟨hlow, ?_⟩
    by_cases he : pageOf w = pageOf v
    · show m.walk w ≠ none
      rw [hsame w he]
      exact Option.some_ne_none _
    · show m.walk w ≠ none
      rw [hother w hlow he]
      exact hold
  · intro t hmem'
    rcases List.mem_append.mp hmem' with hold | hnew
    · exact h.entries t hold
    · cases List.mem_singleton.mp hnew
      exact (h.kernelRange.contains _).mp hm.table

/-- **A page of the process that is not there**: there is no frame for it, or no page table, or
it is mapped. -/
theorem Loading.page_new (h : Loading base threads D g H done s) (hb : SelfMapped base.toMachine)
    (hth : ¬ There base.toMachine (newPages base.toMachine done) v) (hv : UserPage v) :
    ((newPages base.toMachine done).length = base.userPool.spare.card ∧
      ∃ s', mapPage s v = .ok (false, s') ∧ s'.writes = s.writes) ∨
    ((newPages base.toMachine done).length < base.userPool.spare.card ∧ ∃ s' t,
      mapPage s v = .ok (true, s') ∧ s'.writes = s.writes ++ [.entry t] ∧
      ((¬ TableFor base (newPages base.toMachine done) v ∧ t = 0) ∨
        (TableFor base (newPages base.toMachine done) v ∧
          Loading base threads D g H (done ++ [.page v]) s'))) := by
  obtain ⟨L, ht⟩ := h.tracked
  have hnone : s.walk v = none := not_not.mp (mt (h.there hb v).mp hth)
  have hpde : Present (s.pde v) ↔
      Present (base.pde v) ∨ dirIdx v ∈ (newPages base.toMachine done).map pageDir := h.dir (dirIdx v)
  have hucard := h.userCard
  have hkcard := h.kernelCard
  have hne : (some v).getD 0 ≠ (0 : Addr) := by
    rintro rfl
    exact absurd hv.1 (by decide)
  have htable : TableFor base (newPages base.toMachine done) v ↔
      Present (s.pde v) ∨ 0 < s.kernelPool.spare.card := by
    rw [TableFor, ← or_assoc, ← hpde]
    exact or_congr_right (by omega)
  rw [h.mapPage_eq hb hth]
  rcases ht.getOnePage_cases h.space hv hnone with ⟨hzero, m, hm⟩ | ⟨hpos, hp, hk, m, hm, htab⟩ |
    ⟨hok, a, m, hm, hpal, ht', hw', hmapped⟩
  · refine .inl ⟨by omega, ⟨m, s.writes⟩, ?_, ?_⟩
    · rw [hm]
      rfl
    · rfl
  · -- a user frame, but no frame for its table
    refine .inr ⟨by omega, ⟨m, s.writes ++ [.entry (m.tableOf v)]⟩, 0, ?_, ?_, .inl ⟨?_, rfl⟩⟩
    · rw [hm]
      exact if_neg hne
    · rw [htab]
    · rw [htable]
      exact not_or.mpr ⟨hp, by omega⟩
  · have hcard := palloc_card ht.managed.layout.userOk hpal
    refine .inr ⟨by omega, ⟨m, s.writes ++ [.entry (m.tableOf v)]⟩, m.tableOf v, ?_, rfl,
      .inr ⟨htable.mpr hok, h.mapped hth hv hpal ht' hw' hmapped⟩⟩
    rw [hm]
    exact if_neg hne

/-! ## Bytes -/

/-- The record of a copy. -/
def copyWrites (dst : Addr) (bytes : List UInt8) : List LoadWrite :=
  (List.range bytes.length).map fun p => .byte (dst + BitVec.ofNat 32 p)

theorem mem_copyWrites {w : LoadWrite} : w ∈ copyWrites dst bytes ↔
    ∃ p < bytes.length, w = .byte (dst + BitVec.ofNat 32 p) := by
  rw [copyWrites, List.mem_map]
  constructor
  · rintro ⟨p, hp, rfl⟩
    exact ⟨p, List.mem_range.mp hp, rfl⟩
  · rintro ⟨p, hp, rfl⟩
    exact ⟨p, List.mem_range.mpr hp, rfl⟩

/-- The address of a byte determines its index. -/
theorem sub_ofNat_toNat {p : Nat} (hp : p < 2 ^ 32) : (dst + BitVec.ofNat 32 p - dst).toNat = p := by
  rw [BitVec.add_comm, BitVec.add_sub_cancel, BitVec.toNat_ofNat]
  exact Nat.mod_eq_of_lt hp

theorem add_ofNat_sub (v dst : Addr) : dst + BitVec.ofNat 32 (v - dst).toNat = v := by
  rw [BitVec.ofNat_toNat, BitVec.setWidth_eq, BitVec.add_comm, BitVec.sub_add_cancel]

/-- Bytes that all go below the kernel are not too many. -/
theorem length_le_of_low (hlow : ∀ p < bytes.length, dst + BitVec.ofNat 32 p < 0xc0000000) :
    bytes.length ≤ 2 ^ 32 := by
  by_contra hgt
  have hlast := hlow (0xffffffff - dst).toNat (by have := (0xffffffff - dst).isLt; omega)
  rw [add_ofNat_sub] at hlast
  exact absurd hlast (by decide)

theorem run_copy (s : LoadState) (dst : Addr) (bytes : List UInt8) :
    (LoadOp.copy dst bytes).run s = (do
      let m ← s.storeBytes dst bytes
      .ok (true, ⟨{ s with toMachine := m }, s.writes ++ copyWrites dst bytes⟩)) := by
  rw [LoadOp.run, storeProgram, bind_assoc]
  rfl

/-- **Bytes for pages of the process that are there.** -/
theorem Loading.copy (h : Loading base threads D g H done s) (hb : SelfMapped base.toMachine)
    (hlow : ∀ p < bytes.length, dst + BitVec.ofNat 32 p < 0xc0000000)
    (hth : ∀ p < bytes.length,
      There base.toMachine (newPages base.toMachine done) (dst + BitVec.ofNat 32 p)) :
    ∃ s', (LoadOp.copy dst bytes).run s = .ok (true, s') ∧
      Loading base threads D g H (done ++ [.copy dst bytes]) s' := by
  obtain ⟨L, ht⟩ := h.tracked
  obtain ⟨m, hm, hwritten, hbytes⟩ := ht.storeBytes bytes (length_le_of_low hlow) hlow fun p hp =>
    (h.there hb _).mpr (hth p hp)
  have hN : newPages base.toMachine (done ++ [.copy dst bytes]) = newPages base.toMachine done := by
    rw [newPages_snoc]
    rfl
  refine ⟨⟨{ s with toMachine := m }, s.writes ++ copyWrites dst bytes⟩, ?_, ⟨L, hwritten.tracked⟩,
    ⟨h.space.start, h.space.len⟩, hwritten.cr3.trans h.cr3, ?_, ?_, fun v hv => ?_, fun v hv hwin => ?_,
    fun i => ?_, ?_, ?_, ?_, h.kernelRange, fun f hf hnf => ?_, fun v hv f hf => ?_, fun v hne => ?_,
    fun t hmem => ?_⟩
  · rw [run_copy, hm]
    rfl
  · rw [hN]
    exact h.user
  · rw [hN]
    exact h.given
  · rw [hN, ← h.walk v hv]
    exact hwritten.walk v
  · exact (hwritten.walk v).trans (h.high v hv hwin)
  · rw [hN, ← h.dir]
    show Present (m.mem m.cr3 i) ↔ _
    rw [hwritten.cr3, hwritten.dir]
  · rw [hN]
    exact h.pool
  · rw [hN]
    exact h.userCard
  · rw [hN]
    exact h.kernelCard
  · -- a frame that is mapped is taken
    refine (hwritten.unmapped f fun w hw hwf => hnf ?_).trans (h.fresh f hf hnf)
    have hw' := dirIdx_lt_of_low hw
    have hk := ht.covered w hw' (hwf ▸ Option.some_ne_none f)
    rw [ht.managed.layout.walk_eq ht.managed.active (dirIdx_ne_of_low hw')] at hwf
    obtain ⟨f', hf', htk, -⟩ := ht.managed.owned.mapped _ (List.mem_append_left H hk)
    cases hwf.symm.trans hf'
    exact htk
  · -- a byte of the copy, or what was there
    have hf' : s.walk v = some f := (hwritten.walk v).symm.trans hf
    show m.byteAt v = _
    rw [hbytes v hv _ (h.bytes v hv f hf'), lastCopied_snoc]
    show some ((bytes[(v - dst).toNat]?).getD _) = some (((bytes[(v - dst).toNat]?).or _).getD _)
    cases bytes[(v - dst).toNat]? with
    | none => rw [Option.none_or, Option.getD_none]
    | some b => rfl
  · rw [lastCopied_snoc] at hne
    show v < 0xc0000000 ∧ m.walk v ≠ none
    rw [hwritten.walk]
    -- the byte is one of this copy, or of an earlier one
    by_cases hin : (v - dst).toNat < bytes.length
    · have haddr := add_ofNat_sub v dst
      rw [← haddr]
      exact ⟨hlow _ hin, (h.there hb _).mpr (hth _ hin)⟩
    · refine h.copied v fun hnone => hne ?_
      rw [hnone, Option.or_none]
      exact List.getElem?_eq_none (Nat.not_lt.mp hin)
  · rcases List.mem_append.mp hmem with hold | hnew
    · exact h.entries t hold
    · obtain ⟨p, -, he⟩ := mem_copyWrites.mp hnew
      cases he

/-- A copy that returns has found its pages. -/
theorem Loading.copy_there (h : Loading base threads D g H done s) (hb : SelfMapped base.toMachine)
    (hlow : ∀ p < bytes.length, dst + BitVec.ofNat 32 p < 0xc0000000) {r : Bool × LoadState}
    (hok : (LoadOp.copy dst bytes).run s = .ok r) : ∀ p < bytes.length,
      There base.toMachine (newPages base.toMachine done) (dst + BitVec.ofNat 32 p) := by
  obtain ⟨L, ht⟩ := h.tracked
  rw [run_copy] at hok
  obtain ⟨m, hm, -⟩ := bind_eq_ok.mp hok
  exact fun p hp => (h.there hb _).mp (ht.storeBytes_mapped bytes hlow hm p hp)

/-! ## Runs -/

theorem mapPage_writes {r : Bool × LoadState} (hok : mapPage s v = .ok r) :
    s.writes <+: r.2.writes := by
  obtain ⟨there, -, hok⟩ := bind_eq_ok.mp hok
  split at hok
  · cases hok
    exact List.prefix_rfl
  · obtain ⟨⟨page, m⟩, -, hok⟩ := bind_eq_ok.mp hok
    dsimp only at hok
    split at hok
    · cases hok
      exact List.prefix_rfl
    · cases hok
      exact List.prefix_append _ _

theorem run_writes {r : Bool × LoadState} (hok : op.run s = .ok r) : s.writes <+: r.2.writes := by
  cases op with
  | page v => exact mapPage_writes hok
  | copy dst bytes =>
    rw [run_copy] at hok
    obtain ⟨m, -, hok⟩ := bind_eq_ok.mp hok
    cases hok
    exact List.prefix_append _ _

/-- The record only grows. -/
theorem runLoad_writes {r : Bool × LoadState} (hok : runLoad ops s = .ok r) :
    s.writes <+: r.2.writes := by
  induction ops generalizing s with
  | nil =>
    cases hok
    exact List.prefix_rfl
  | cons op ops ih =>
    obtain ⟨⟨ok, s1⟩, hstep, hrest⟩ := bind_eq_ok.mp hok
    have hfirst := run_writes hstep
    cases ok with
    | false =>
      cases hrest
      exact hfirst
    | true => exact hfirst.trans (ih hrest)

/-- The steps return, and nothing harmful has been written. -/
def HarmlessRun (base : Memory) (s : LoadState) (ops : List LoadOp) : Prop :=
  ∃ r, runLoad ops s = .ok r ∧ ∀ w ∈ r.2.writes, w.Harmless base

theorem harmlessRun_cons {s' : LoadState} (hstep : op.run s = .ok (true, s')) :
    HarmlessRun base s (op :: ops) ↔ HarmlessRun base s' ops := by
  rw [HarmlessRun, runLoad, hstep]
  rfl

/-- What has been written stays written. -/
theorem not_harmlessRun {w : LoadWrite} (hmem : w ∈ s.writes) (hw : ¬ w.Harmless base) :
    ¬ HarmlessRun base s ops := by
  rintro ⟨r, hok, hall⟩
  exact hw (hall w ((runLoad_writes hok).subset hmem))

/-- A page table in frame 0 is none of the kernel pool. -/
theorem not_harmless_zero (hlow : 0x200 ≤ base.kernelPool.first) :
    ¬ (LoadWrite.entry 0).Harmless base := by
  intro hcon
  have h1 := hcon.1
  have hzero : (0 : Frame).toNat = 0 := rfl
  unfold Pool.first at hlow
  unfold pgSize at *
  omega

/-- How a step can go: it is allowed, and the run goes on or ends for want of a frame, or it is
not allowed, and does not return or writes something harmful. -/
def StepOutcome (base : Memory) (threads : List Addr) (D : Frame → Prop) (g : VPage → Frame)
    (H : List VPage) (done : List LoadOp) (s : LoadState) (op : LoadOp) : Prop :=
  (op.Allowed base (newPages base.toMachine done) ∧ ∃ s', op.run s = .ok (true, s') ∧
    Loading base threads D g H (done ++ [op]) s' ∧
    (newPages base.toMachine (done ++ [op])).length ≤ base.userPool.spare.card ∧
    ∀ w ∈ s'.writes, w.Harmless base) ∨
  (op.Allowed base (newPages base.toMachine done) ∧
    base.userPool.spare.card < (newPages base.toMachine (done ++ [op])).length ∧
    ∃ s', op.run s = .ok (false, s') ∧ s'.writes = s.writes) ∨
  (¬ op.Allowed base (newPages base.toMachine done) ∧
    ∀ r, op.run s = .ok r → ∃ w ∈ r.2.writes, ¬ w.Harmless base)

theorem Loading.step_page (h : Loading base threads D g H done s) (hb : SelfMapped base.toMachine)
    (hlow : 0x200 ≤ base.kernelPool.first)
    (hle : (newPages base.toMachine done).length ≤ base.userPool.spare.card)
    (hw : ∀ w ∈ s.writes, w.Harmless base) (v : Addr) :
    StepOutcome base threads D g H done s (.page v) := by
  by_cases hth : There base.toMachine (newPages base.toMachine done) v
  · obtain ⟨hstep, hnext⟩ := h.page_there hb hth
    have hN : newPages base.toMachine (done ++ [.page v]) = newPages base.toMachine done := by
      rw [newPages_snoc, LoadOp.newPage, if_pos hth]
    exact .inl ⟨.inl hth, s, hstep, hnext, hN ▸ hle, hw⟩
  have hN : (newPages base.toMachine (done ++ [.page v])).length =
      (newPages base.toMachine done).length + 1 := by
    rw [newPages_snoc, LoadOp.newPage, if_neg hth, List.length_append, List.length_singleton]
  by_cases hv : UserPage v
  · rcases h.page_new hb hth hv with ⟨hfull, s', hstep, hwrites⟩ |
      ⟨hlt, s', t, hstep, hwrites, ⟨htab, rfl⟩ | ⟨htab, hnext⟩⟩
    · exact .inr (.inl ⟨.inr ⟨hv, fun hlt => absurd hfull hlt.ne⟩, by omega, s', hstep, hwrites⟩)
    · refine .inr (.inr ⟨fun hall => hall.elim hth fun hall => htab (hall.2 hlt), fun r hr => ?_⟩)
      cases hstep.symm.trans hr
      refine ⟨.entry 0, ?_, not_harmless_zero hlow⟩
      rw [hwrites]
      exact List.mem_append_right _ (List.mem_singleton.mpr rfl)
    · refine .inl ⟨.inr ⟨hv, fun _ => htab⟩, s', hstep, hnext, by omega, fun w hmem => ?_⟩
      have hold := hmem
      rw [hwrites] at hold
      rcases List.mem_append.mp hold with hold | hnew
      · exact hw w hold
      · obtain rfl := List.mem_singleton.mp hnew
        exact hnext.entries t hmem
  · obtain ⟨e, hstep⟩ := h.page_outside hb hth hv
    refine .inr (.inr ⟨fun hall => hall.elim hth fun hall => hv hall.1, fun r hr => ?_⟩)
    cases hstep.symm.trans hr

theorem Loading.step_copy (h : Loading base threads D g H done s) (hb : SelfMapped base.toMachine)
    (hle : (newPages base.toMachine done).length ≤ base.userPool.spare.card)
    (hw : ∀ w ∈ s.writes, w.Harmless base) (dst : Addr) (bytes : List UInt8) :
    StepOutcome base threads D g H done s (.copy dst bytes) := by
  have hN : newPages base.toMachine (done ++ [.copy dst bytes]) = newPages base.toMachine done := by
    rw [newPages_snoc]
    rfl
  have hwrites : ∀ r, (LoadOp.copy dst bytes).run s = .ok r →
      r.2.writes = s.writes ++ copyWrites dst bytes := by
    intro r hr
    rw [run_copy] at hr
    obtain ⟨m, -, hr⟩ := bind_eq_ok.mp hr
    cases hr
    rfl
  by_cases hlow : ∀ p < bytes.length, dst + BitVec.ofNat 32 p < 0xc0000000
  · by_cases hth : ∀ p < bytes.length,
        There base.toMachine (newPages base.toMachine done) (dst + BitVec.ofNat 32 p)
    · obtain ⟨s', hstep, hnext⟩ := h.copy hb hlow hth
      refine .inl ⟨fun p hp => ⟨hlow p hp, hth p hp⟩, s', hstep, hnext, hN ▸ hle, fun w hmem => ?_⟩
      rw [hwrites _ hstep] at hmem
      rcases List.mem_append.mp hmem with hold | hnew
      · exact hw w hold
      · obtain ⟨p, hp, rfl⟩ := mem_copyWrites.mp hnew
        exact hlow p hp
    · -- a page fault in the kernel
      refine .inr (.inr ⟨fun hall => hth fun p hp => (hall p hp).2, fun r hr => ?_⟩)
      exact absurd (h.copy_there hb hlow hr) hth
  · -- a byte at or above `0xc0000000`, whatever it hits there
    refine .inr (.inr ⟨fun hall => hlow fun p hp => (hall p hp).1, fun r hr => ?_⟩)
    obtain ⟨p, hp⟩ := not_forall.mp hlow
    obtain ⟨hp, hhigh⟩ := Classical.not_imp.mp hp
    refine ⟨.byte (dst + BitVec.ofNat 32 p), ?_, hhigh⟩
    rw [hwrites r hr]
    exact List.mem_append_right _ (mem_copyWrites.mpr ⟨p, hp, rfl⟩)

/-- One step. -/
theorem Loading.step (h : Loading base threads D g H done s) (hb : SelfMapped base.toMachine)
    (hlow : 0x200 ≤ base.kernelPool.first)
    (hle : (newPages base.toMachine done).length ≤ base.userPool.spare.card)
    (hw : ∀ w ∈ s.writes, w.Harmless base) (op : LoadOp) :
    StepOutcome base threads D g H done s op := by
  cases op with
  | page v => exact h.step_page hb hlow hle hw v
  | copy dst bytes => exact h.step_copy hb hle hw dst bytes

/-- **When a run is harmless**: exactly when each step that is come to is allowed. -/
theorem Loading.harmlessRun_iff (h : Loading base threads D g H done s) (hb : SelfMapped base.toMachine)
    (hlow : 0x200 ≤ base.kernelPool.first)
    (hle : (newPages base.toMachine done).length ≤ base.userPool.spare.card)
    (hw : ∀ w ∈ s.writes, w.Harmless base) :
    HarmlessRun base s ops ↔ SafeSteps base done ops := by
  induction ops generalizing done s with
  | nil => exact iff_of_true ⟨_, rfl, hw⟩ fun d op rest he => absurd he (by simp)
  | cons op ops ih =>
    rw [safeSteps_cons]
    rcases h.step hb hlow hle hw op with ⟨hall, s', hstep, hnext, hle', hw'⟩ |
      ⟨hall, hfull, s', hstep, hwrites⟩ | ⟨hall, hbad⟩
    · rw [harmlessRun_cons hstep, ih hnext hle' hw']
      exact (and_iff_right fun _ => hall).symm
    · -- there is no frame for the page, and `load` gives up
      have hrun : HarmlessRun base s (op :: ops) := by
        refine ⟨(false, s'), ?_, hwrites ▸ hw⟩
        rw [runLoad, hstep]
        rfl
      refine iff_of_true hrun ⟨fun _ => hall, fun d op' rest _ hle' => ?_⟩
      have hgrown := (newPages_extend base.toMachine (done ++ [op]) d).length_le
      omega
    · -- whatever the later steps do, the harm has been done
      refine iff_of_false ?_ fun hsafe => hall (hsafe.1 hle)
      rintro ⟨r, hok, hrw⟩
      obtain ⟨⟨ok, s1⟩, hstep, hrest⟩ := bind_eq_ok.mp hok
      obtain ⟨w, hmem, hharm⟩ := hbad _ hstep
      cases ok with
      | false =>
        cases hrest
        exact hharm (hrw w hmem)
      | true => exact not_harmlessRun hmem hharm ⟨r, hrest, hrw⟩

/-- A run without a step that is not allowed, and with a frame for each page, takes all steps. -/
theorem Loading.run_safe (h : Loading base threads D g H done s) (hb : SelfMapped base.toMachine)
    (hlow : 0x200 ≤ base.kernelPool.first) (hw : ∀ w ∈ s.writes, w.Harmless base)
    (hle : (newPages base.toMachine (done ++ ops)).length ≤ base.userPool.spare.card)
    (hsafe : SafeSteps base done ops) :
    ∃ s', runLoad ops s = .ok (true, s') ∧ Loading base threads D g H (done ++ ops) s' := by
  induction ops generalizing done s with
  | nil =>
    rw [List.append_nil]
    exact ⟨s, rfl, h⟩
  | cons op ops ih =>
    obtain ⟨hfirst, hrest⟩ := safeSteps_cons.mp hsafe
    have hle' := (newPages_extend base.toMachine done (op :: ops)).length_le.trans hle
    rw [List.append_cons] at hle ⊢
    have hgrown := (newPages_extend base.toMachine (done ++ [op]) ops).length_le
    rcases h.step hb hlow hle' hw op with ⟨-, s1, hstep, hnext, -, hw1⟩ | ⟨-, hfull, -⟩ | ⟨hall, -⟩
    · obtain ⟨s', hrun, hlast⟩ := ih hnext hw1 hle hrest
      refine ⟨s', ?_, hlast⟩
      rw [runLoad, hstep]
      exact hrun
    · omega
    · exact absurd (hfirst hle') hall

/-- The bytes that a run has written are those of its copies. -/
theorem runLoad_byte {s' : LoadState} (hok : runLoad ops s = .ok (true, s')) (a : Addr) :
    .byte a ∈ s'.writes ↔ .byte a ∈ s.writes ∨ ∃ dst bytes, LoadOp.copy dst bytes ∈ ops ∧
      ∃ p < bytes.length, a = dst + BitVec.ofNat 32 p := by
  induction ops generalizing s with
  | nil =>
    cases hok
    exact (or_iff_left (by simp)).symm
  | cons op ops ih =>
    obtain ⟨⟨ok, s1⟩, hstep, hrest⟩ := bind_eq_ok.mp hok
    cases ok with
    | false => cases hrest
    | true =>
      rw [ih hrest]
      cases op with
      | page v =>
        have hsame : .byte a ∈ s1.writes ↔ .byte a ∈ s.writes := by
          obtain ⟨there, -, hpage⟩ := bind_eq_ok.mp hstep
          split at hpage
          · cases hpage
            rfl
          · obtain ⟨⟨page, m⟩, -, hpage⟩ := bind_eq_ok.mp hpage
            dsimp only at hpage
            split at hpage
            · cases hpage
            · cases hpage
              simp
        simp [hsame]
      | copy dst bytes =>
        rw [run_copy] at hstep
        obtain ⟨m, -, hstep⟩ := bind_eq_ok.mp hstep
        cases hstep
        rw [List.mem_append, mem_copyWrites, or_assoc]
        refine or_congr_right ⟨?_, ?_⟩
        · rintro (⟨p, hp, he⟩ | ⟨dst', bytes', hmem, hrest⟩)
          · cases he
            exact ⟨dst, bytes, List.mem_cons_self .., p, hp, rfl⟩
          · exact ⟨dst', bytes', List.mem_cons_of_mem _ hmem, hrest⟩
        · rintro ⟨dst', bytes', hmem, p, hp, rfl⟩
          rcases List.mem_cons.mp hmem with he | hmem
          · cases he
            exact .inl ⟨p, hp, rfl⟩
          · exact .inr ⟨dst', bytes', hmem, p, hp, rfl⟩

/-- **A run that takes all steps**, and copies to pages of the process only: the memory is as
worked out, unless there was no frame for a page table. -/
theorem Loading.run_ok (h : Loading base threads D g H done s) (hb : SelfMapped base.toMachine)
    (hcopy : ∀ dst bytes, LoadOp.copy dst bytes ∈ ops →
      ∀ p < bytes.length, dst + BitVec.ofNat 32 p < 0xc0000000)
    {s' : LoadState} (hok : runLoad ops s = .ok (true, s')) :
    Loading base threads D g H (done ++ ops) s' ∨ .entry 0 ∈ s'.writes ∧
      base.kernelPool.spare.card <
        (newTables base.toMachine (newPages base.toMachine (done ++ ops))).card := by
  induction ops generalizing done s with
  | nil =>
    cases hok
    rw [List.append_nil]
    exact .inl h
  | cons op ops ih =>
    obtain ⟨⟨ok, s1⟩, hstep, hrest⟩ := bind_eq_ok.mp hok
    have hcopy' := fun dst bytes hmem => hcopy dst bytes (List.mem_cons_of_mem _ hmem)
    cases ok with
    | false => cases hrest
    | true =>
      rw [List.append_cons]
      cases op with
      | copy dst bytes =>
        have hlow := hcopy dst bytes (List.mem_cons_self ..)
        obtain ⟨s2, hstep2, hnext⟩ := h.copy hb hlow (h.copy_there hb hlow hstep)
        cases hstep.symm.trans hstep2
        exact ih hnext hcopy' hrest
      | page v =>
        -- the page is there, or is a new one of the process: elsewhere the step does not return
        by_cases hth : There base.toMachine (newPages base.toMachine done) v
        · obtain ⟨hstep2, hnext⟩ := h.page_there hb hth
          cases hstep.symm.trans hstep2
          exact ih hnext hcopy' hrest
        by_cases hv : UserPage v
        · rcases h.page_new hb hth hv with ⟨-, s2, hstep2, -⟩ |
            ⟨-, s2, t, hstep2, hwrites, ⟨htab, rfl⟩ | ⟨-, hnext⟩⟩
          · cases hstep.symm.trans hstep2
          · -- the table is in frame 0
            cases hstep.symm.trans hstep2
            have hmem : .entry 0 ∈ s1.writes := by
              rw [hwrites]
              exact List.mem_append_right _ (List.mem_singleton.mpr rfl)
            refine .inr ⟨(runLoad_writes hrest).subset hmem, ?_⟩
            obtain ⟨hp, hnew, hcard⟩ : ¬ Present (base.mem base.cr3 (dirIdx v)) ∧
                dirIdx v ∉ (newPages base.toMachine done).map pageDir ∧
                ¬ (newTables base.toMachine (newPages base.toMachine done)).card <
                  base.kernelPool.spare.card := by
              rw [TableFor, not_or, not_or] at htab
              exact htab
            have hone := newTables_snoc base.toMachine (newPages base.toMachine done) v
            rw [if_neg (not_or.mpr ⟨hp, hnew⟩)] at hone
            have hN : newPages base.toMachine (done ++ [.page v]) =
                newPages base.toMachine done ++ [pageOf v] := by
              rw [newPages_snoc, LoadOp.newPage, if_neg hth]
            have hsub : newTables base.toMachine (newPages base.toMachine (done ++ [.page v])) ⊆
                newTables base.toMachine (newPages base.toMachine (done ++ [.page v] ++ ops)) :=
              newTables_mono (newPages_extend base.toMachine (done ++ [.page v]) ops).subset
            have hmono := Finset.card_le_card hsub
            rw [hN, hone] at hmono
            omega
          · cases hstep.symm.trans hstep2
            exact ih hnext hcopy' hrest
        · obtain ⟨e, hfault⟩ := h.page_outside hb hth hv
          cases hstep.symm.trans hfault

end Invariant

end GwOS
