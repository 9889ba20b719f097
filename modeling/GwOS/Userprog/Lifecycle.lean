import GwOS.Thread.Transitions

/-!
# The life of a process (`userprog/fork.c`, `exit.c`, `wait.c`)

Processes refer to each other by pid. A pid is a bit of the pid pool, given to one thread
at a time, and the field `parent_pid` of a thread is one of them, or `-1`. `Family` is
what the process table keeps through every `sys_fork`, `sys_exit`, `sys_wait` and
`thread_exit`: pids are unique, parents are in the table and do not hang, and `init` is
there for the orphans.

- `parents_alive`: the parent of every thread is one thread of the list, and not a zombie.
- `exit_wait_protocol`: who reaps whom, and with which status, over a whole run.
-/

namespace GwOS

/-! ## Pids -/

/-- `alloc_pid` returns a pid that nobody has. -/
theorem allocPid_eq_ok {mp mp' : Bitmap} {pid : Int} (hlen : mp.len = 128)
    (h : allocPid mp = .ok (pid, mp')) :
    ∃ i : Nat, i < 127 ∧ pid = i + 1 ∧ mp.bit i = false ∧ mp'.len = 128 ∧
      ∀ j, mp'.bit j = if j = i then true else mp.bit j := by
  have hone : 1 ≤ mp.len := by omega
  obtain ⟨r, hr, hfound⟩ := bitmapApplyCnt_ok (Nat.le_refl 1) hone (by omega)
  rw [allocPid, hr] at h
  obtain ⟨r', hr', h⟩ := bind_eq_ok.mp h
  cases hr'
  obtain ⟨mp₁, hset, hok⟩ := bind_eq_ok.mp h
  cases r with
  | none =>
    -- the search has failed, and the bit it sets is far outside of the bitmap
    have hbyte : mp.bits[(2 ^ 32 - 1) / 8]? = none := List.getElem?_eq_none (by
      have : mp.bits.length = mp.len := rfl
      omega)
    have hfail : bitmapSetIdx mp (2 ^ 32 - 1) 1 = .error .outOfBounds := by
      rw [bitmapSetIdx, if_pos (.inr rfl), hbyte]
    cases hfail.symm.trans hset
  | some i =>
    obtain ⟨-, hi, hfree⟩ := hfound
    have hi' : i < 127 := by omega
    have hidx : i < 8 * mp.len := by omega
    obtain ⟨mp₂, hset', hlen', hbit⟩ := bitmapSetIdx_ok hidx true
    have hmp : mp₂ = mp₁ := Except.ok.inj (hset'.symm.trans hset)
    cases hok
    subst hmp
    exact ⟨i, hi', rfl, hfree 0 (by decide), by rw [hlen', hlen], hbit⟩

/-- `release_pid` gives one pid back. -/
theorem releasePid_eq_ok {mp mp' : Bitmap} {i : Nat} (hi : i < 127) (hlen : mp.len = 128)
    (h : releasePid mp (i + 1) = .ok mp') :
    mp'.len = 128 ∧ ∀ j, mp'.bit j = if j = i then false else mp.bit j := by
  have hin : i < 8 * mp.len := by omega
  obtain ⟨mp₁, hset, hlen₁, hbit⟩ := bitmapSetIdx_ok hin false
  have hidx : (((i : Int) + 1 - pidStart) % 2 ^ 32).toNat = i := by
    rw [pidStart]
    omega
  rw [releasePid, hidx] at h
  have hmp : mp₁ = mp' := Except.ok.inj (hset.symm.trans h)
  subst hmp
  exact ⟨by rw [hlen₁, hlen], hbit⟩

namespace Threads

variable {T S W : Type} [DecidableEq T] [DecidableEq S] [DecidableEq W]
variable {s s' : Threads T S W} {a : ProcTable T} {t : T}

/-! ## The family of processes -/

/-- Pids are unique, and every parent is a process that can still wait. -/
structure Kinship (a : ProcTable T) : Prop where
  len : a.pids.len = 128
  pid : ∀ t p, a.proc t = some p → ∃ i : Nat, i < 127 ∧ p.pid = i + 1 ∧ a.pids.bit i = true
  unique : ∀ t u p q, a.proc t = some p → a.proc u = some q → p.pid = q.pid → t = u
  parent : ∀ t p, a.proc t = some p → p.parentPid ≠ -1 →
    ∃ u q, a.proc u = some q ∧ q.pid = p.parentPid ∧ q.hanging = false ∧ q.user = true

/-- The process `init` has the pid that orphans get for a parent, and the main thread is not
a process. -/
structure Family (init main : T) (a : ProcTable T) : Prop extends Kinship a where
  init : ∃ p, a.proc init = some p ∧ p.pid = 1 ∧ p.parentPid = -1 ∧ p.hanging = false ∧
    p.user = true
  main : ∀ p, a.proc main = some p → p.user = false

variable {init main : T}

omit [DecidableEq T] in
/-- A pid is lost. -/
theorem Kinship.leak (h : Kinship a) {pid : Int} {mp : Bitmap}
    (hpid : allocPid a.pids = .ok (pid, mp)) : Kinship ⟨a.proc, mp⟩ := by
  obtain ⟨i, -, -, -, hlen, hbit⟩ := allocPid_eq_ok h.len hpid
  refine ⟨hlen, fun t p hp => ?_, h.unique, h.parent⟩
  obtain ⟨j, hj, hpj, hset⟩ := h.pid t p hp
  refine ⟨j, hj, hpj, ?_⟩
  rw [hbit]
  split
  · rfl
  · exact hset

omit [DecidableEq T] in
/-- The pid of a new thread is nobody's, not even as the pid of a parent. -/
theorem Kinship.fresh (h : Kinship a) {pid : Int} {mp : Bitmap}
    (hpid : allocPid a.pids = .ok (pid, mp)) {u : T} {q : Proc} (hq : a.proc u = some q) :
    q.pid ≠ pid ∧ q.parentPid ≠ pid := by
  obtain ⟨i, -, rfl, hfree, -, -⟩ := allocPid_eq_ok h.len hpid
  have hother : ∀ {v r}, a.proc v = some r → r.pid ≠ (i : Int) + 1 := by
    intro v r hr he
    obtain ⟨j, -, hj, hset⟩ := h.pid v r hr
    have hij : j = i := by omega
    rw [hij, hfree] at hset
    cases hset
  refine ⟨hother hq, fun he => ?_⟩
  have hne : q.parentPid ≠ -1 := by omega
  obtain ⟨v, r, hr, hrp, -, -⟩ := h.parent u q hq hne
  exact hother hr (hrp.trans he)

/-- A new thread, without a parent or with one that can wait. -/
theorem Kinship.spawn (h : Kinship a) (ht : a.proc t = none) {pid : Int} {mp : Bitmap}
    (hpid : allocPid a.pids = .ok (pid, mp)) {ppid : Int} {status : Int8} {user : Bool}
    (hparent : ppid = -1 ∨ ∃ u q, a.proc u = some q ∧ q.pid = ppid ∧ q.hanging = false ∧
      q.user = true) :
    Kinship (a.spawn t ⟨pid, ppid, status, user, false⟩ mp) := by
  obtain ⟨i, hi, rfl, -, hlen, hbit⟩ := allocPid_eq_ok h.len hpid
  have hself : (a.spawn t ⟨i + 1, ppid, status, user, false⟩ mp).proc t =
      some ⟨i + 1, ppid, status, user, false⟩ := Function.update_self ..
  have hold : ∀ {u}, u ≠ t →
      (a.spawn t ⟨i + 1, ppid, status, user, false⟩ mp).proc u = a.proc u :=
    fun hu => Function.update_of_ne hu ..
  have hkeep : ∀ {u q}, a.proc u = some q →
      (a.spawn t ⟨i + 1, ppid, status, user, false⟩ mp).proc u = some q := by
    intro u q hq
    rw [hold, hq]
    rintro rfl
    rw [ht] at hq
    cases hq
  refine ⟨hlen, fun u p hp => ?_, fun u v p q hp hq he => ?_, fun u p hp hpp => ?_⟩
  · by_cases hu : u = t
    · rw [hu, hself] at hp
      cases hp
      exact ⟨i, hi, rfl, (hbit i).trans (if_pos rfl)⟩
    · rw [hold hu] at hp
      obtain ⟨j, hj, hpj, hset⟩ := h.pid u p hp
      refine ⟨j, hj, hpj, (hbit j).trans ?_⟩
      split
      · rfl
      · exact hset
  · by_cases hu : u = t
    · by_cases hv : v = t
      · rw [hu, hv]
      · rw [hu, hself] at hp
        rw [hold hv] at hq
        cases hp
        exact absurd he.symm (h.fresh hpid hq).1
    · by_cases hv : v = t
      · rw [hold hu] at hp
        rw [hv, hself] at hq
        cases hq
        exact absurd he (h.fresh hpid hp).1
      · rw [hold hu] at hp
        rw [hold hv] at hq
        exact h.unique u v p q hp hq he
  · by_cases hu : u = t
    · rw [hu, hself] at hp
      cases hp
      obtain hnone | ⟨v, q, hq, hrest⟩ := hparent
      · exact absurd hnone hpp
      · exact ⟨v, q, hkeep hq, hrest⟩
    · rw [hold hu] at hp
      obtain ⟨v, q, hq, hrest⟩ := h.parent u p hp hpp
      exact ⟨v, q, hkeep hq, hrest⟩

/-- A thread that nobody has for a parent is taken out. -/
theorem Kinship.remove (h : Kinship a) {p : Proc} (ht : a.proc t = some p)
    (hchild : p.hanging = true ∨ p.user = false) {mp : Bitmap}
    (hpid : releasePid a.pids p.pid = .ok mp) : Kinship (a.remove t mp) := by
  obtain ⟨i, hi, hpi, -⟩ := h.pid t p ht
  rw [hpi] at hpid
  obtain ⟨hlen, hbit⟩ := releasePid_eq_ok hi h.len hpid
  have hold : ∀ {u q}, (a.remove t mp).proc u = some q → u ≠ t ∧ a.proc u = some q := by
    intro u q hq
    have hu : u ≠ t := by
      rintro rfl
      have hgone : (a.remove u mp).proc u = none := Function.update_self ..
      rw [hgone] at hq
      cases hq
    have hsame : (a.remove t mp).proc u = a.proc u := Function.update_of_ne hu ..
    exact ⟨hu, hsame.symm.trans hq⟩
  refine ⟨hlen, fun u q hq => ?_, fun u v q r hq hr he => ?_, fun u q hq hqp => ?_⟩
  · obtain ⟨hu, hq⟩ := hold hq
    obtain ⟨j, hj, hqj, hset⟩ := h.pid u q hq
    have hji : j ≠ i := by
      intro he
      refine hu (h.unique u t q p hq ht ?_)
      rw [hqj, hpi, he]
    exact ⟨j, hj, hqj, ((hbit j).trans (if_neg hji)).trans hset⟩
  · exact h.unique u v q r (hold hq).2 (hold hr).2 he
  · obtain ⟨v, r, hr, hrp, hrh, hru⟩ := h.parent u q (hold hq).2 hqp
    refine ⟨v, r, ?_, hrp, hrh, hru⟩
    have hv : v ≠ t := by
      rintro rfl
      obtain rfl : r = p := Option.some.inj (hr.symm.trans ht)
      rcases hchild with hh | hu
      · rw [hrh] at hh
        cases hh
      · rw [hru] at hu
        cases hu
    have hsame : (a.remove t mp).proc v = a.proc v := Function.update_of_ne hv ..
    rw [hsame, hr]

/-- A process hangs, and leaves its children to `init`. -/
theorem Family.exit (h : Family init main a) {p : Proc} (ht : a.proc t = some p)
    (hparent : p.parentPid ≠ -1) (status : Int) : Family init main (a.exit t p.pid status) := by
  obtain ⟨i, hi, hipid, hippid, hih, hiu⟩ := h.init
  have hit : init ≠ t := by
    rintro rfl
    rw [hi] at ht
    cases ht
    exact hparent hippid
  -- what the entry of a thread becomes
  have hself : (a.exit t p.pid status).proc t =
      some { p.adopt p.pid with exitStatus := Int8.ofInt status, hanging := true } := by
    simp [ProcTable.exit, ht]
  have hother : ∀ {u}, u ≠ t → (a.exit t p.pid status).proc u = (a.proc u).map (Proc.adopt p.pid) := by
    intro u hu
    simp [ProcTable.exit, hu]
  -- and where it comes from
  have hold : ∀ {u q}, (a.exit t p.pid status).proc u = some q →
      ∃ r, a.proc u = some r ∧ q.pid = r.pid ∧ q.user = r.user ∧
        q.parentPid = (r.adopt p.pid).parentPid := by
    intro u q hq
    by_cases hu : u = t
    · rw [hu, hself] at hq
      cases hq
      refine ⟨p, hu ▸ ht, ?_, ?_, rfl⟩ <;> simp only [Proc.adopt] <;> split <;> rfl
    · rw [hother hu] at hq
      obtain ⟨r, hr, rfl⟩ := Option.map_eq_some_iff.mp hq
      refine ⟨r, hr, ?_, ?_, rfl⟩ <;> simp only [Proc.adopt] <;> split <;> rfl
  have hkeep : ∀ {u q}, u ≠ t → a.proc u = some q → ∃ r, (a.exit t p.pid status).proc u = some r ∧
      r.pid = q.pid ∧ r.hanging = q.hanging ∧ r.user = q.user := by
    intro u q hu hq
    refine ⟨q.adopt p.pid, by rw [hother hu, hq]; rfl, ?_⟩
    simp only [Proc.adopt]
    split <;> exact ⟨rfl, rfl, rfl⟩
  have hinit : (a.exit t p.pid status).proc init = some i := by
    obtain ⟨j, -, hj, -⟩ := h.pid t p ht
    have hne : i.parentPid ≠ p.pid := by omega
    rw [hother hit, hi, Option.map_some, Proc.adopt, if_neg hne]
  refine ⟨⟨h.len, fun u q hq => ?_, fun u v q r hq hr he => ?_, fun u q hq hqp => ?_⟩,
    ⟨i, hinit, hipid, hippid, hih, hiu⟩, fun q hq => ?_⟩
  · obtain ⟨r, hr, hpid, -⟩ := hold hq
    rw [hpid]
    exact h.pid u r hr
  · obtain ⟨q', hq', hqpid, -⟩ := hold hq
    obtain ⟨r', hr', hrpid, -⟩ := hold hr
    exact h.unique u v q' r' hq' hr' (by rw [← hqpid, he, hrpid])
  · obtain ⟨r, hr, -, -, hrp⟩ := hold hq
    rw [hrp, Proc.adopt] at hqp ⊢
    by_cases hc : r.parentPid = p.pid
    · -- a child of the process that exits
      rw [if_pos hc]
      exact ⟨init, i, hinit, hipid, hih, hiu⟩
    · rw [if_neg hc] at hqp ⊢
      obtain ⟨v, w, hw, hwp, hwh, hwu⟩ := h.parent u r hr hqp
      have hv : v ≠ t := by
        rintro rfl
        rw [ht] at hw
        cases hw
        exact hc hwp.symm
      obtain ⟨w', hw', hp', hh', hu'⟩ := hkeep hv hw
      exact ⟨v, w', hw', by rw [hp', hwp], by rw [hh', hwh], by rw [hu', hwu]⟩
  · obtain ⟨r, hr, -, huser, -⟩ := hold hq
    rw [huser]
    exact h.main r hr

/-- The same for the other changes of the table, which do not touch `init`. -/
theorem Family.spawn (h : Family init main a) (ht : a.proc t = none) (htm : t ≠ main) {pid : Int}
    {mp : Bitmap} (hpid : allocPid a.pids = .ok (pid, mp)) {ppid : Int} {status : Int8} {user : Bool}
    (hparent : ppid = -1 ∨ ∃ u q, a.proc u = some q ∧ q.pid = ppid ∧ q.hanging = false ∧
      q.user = true) :
    Family init main (a.spawn t ⟨pid, ppid, status, user, false⟩ mp) := by
  obtain ⟨i, hi, hrest⟩ := h.init
  have hit : init ≠ t := by
    rintro rfl
    rw [ht] at hi
    cases hi
  have hold : ∀ {u}, u ≠ t → (a.spawn t ⟨pid, ppid, status, user, false⟩ mp).proc u = a.proc u :=
    fun hu => Function.update_of_ne hu ..
  refine ⟨h.toKinship.spawn ht hpid hparent, ⟨i, (hold hit).trans hi, hrest⟩, fun p hp => ?_⟩
  rw [hold htm.symm] at hp
  exact h.main p hp

theorem Family.remove (h : Family init main a) {p : Proc} (ht : a.proc t = some p)
    (hchild : p.hanging = true ∨ p.user = false) {mp : Bitmap}
    (hpid : releasePid a.pids p.pid = .ok mp) : Family init main (a.remove t mp) := by
  obtain ⟨i, hi, hipid, hippid, hih, hiu⟩ := h.init
  have hit : init ≠ t := by
    rintro rfl
    rw [hi] at ht
    cases ht
    rcases hchild with hh | hu
    · rw [hih] at hh
      cases hh
    · rw [hiu] at hu
      cases hu
  have hsame : (a.remove t mp).proc init = a.proc init := Function.update_of_ne hit ..
  refine ⟨h.toKinship.remove ht hchild hpid, ⟨i, hsame.trans hi, hipid, hippid, hih, hiu⟩,
    fun q hq => ?_⟩
  by_cases hm : main = t
  · have hgone : (a.remove t mp).proc main = none := by
      rw [hm]
      exact Function.update_self ..
    rw [hgone] at hq
    cases hq
  · have hmain : (a.remove t mp).proc main = a.proc main := Function.update_of_ne hm ..
    exact h.main q (hmain.symm.trans hq)

/-! ## The main thread -/

/-- The call, when it returns, leaves the variable `main_thread` as it is. -/
def SameMain (s : Threads T S W) (r : Except SchedFault (Threads T S W)) : Prop :=
  ∀ s', r = .ok s' → s'.mainThread = s.mainThread

omit [DecidableEq T] [DecidableEq S] [DecidableEq W] in
theorem SameMain.ok (h : s'.mainThread = s.mainThread) : SameMain s (.ok s') := by
  rintro _ ⟨⟩
  exact h

omit [DecidableEq T] [DecidableEq S] [DecidableEq W] in
theorem SameMain.error (e : SchedFault) : SameMain s (.error e) := nofun

omit [DecidableEq T] [DecidableEq S] [DecidableEq W] in
theorem SameMain.bind {α : Type} {r : Except SchedFault α}
    {g : α → Except SchedFault (Threads T S W)} (h : ∀ a, r = .ok a → SameMain s (g a)) :
    SameMain s (r >>= g) := by
  intro s' hs'
  obtain ⟨a, ha, hg⟩ := bind_eq_ok.mp hs'
  exact h a ha s' hg

omit [DecidableEq S] [DecidableEq W] in
theorem threadUnblock_sameMain (s : Threads T S W) (t : T) : SameMain s (s.threadUnblock t) := by
  rw [threadUnblock]
  split
  · split
    · split
      · exact .error _
      · exact .ok rfl
    · exact .ok rfl
  · exact .error _

omit [DecidableEq S] [DecidableEq W] in
theorem schedule_sameMain (s : Threads T S W) : SameMain s s.schedule := by
  rw [schedule]
  split
  · have hrequeue : SameMain s s.requeueNow := by
      rw [requeueNow]
      split
      · split
        · exact .error _
        · exact .ok rfl
      · exact .ok rfl
    refine .bind fun s₁ h₁ => .bind fun s₂ h₂ => ?_
    have hrevive : s₂.mainThread = s₁.mainThread := by
      rw [reviveIdle] at h₂
      split at h₂
      · exact threadUnblock_sameMain _ _ _ h₂
      · cases h₂
        rfl
    rw [dispatch]
    split
    · exact .error _
    · exact .ok (hrevive.trans (hrequeue _ h₁))
  · exact .error _

omit [DecidableEq S] [DecidableEq W] in
theorem threadBlock_sameMain (s : Threads T S W) (status : TaskStatus) :
    SameMain s (s.threadBlock status) := by
  rw [threadBlock]
  split
  · exact schedule_sameMain _
  · exact .error _

omit [DecidableEq S] [DecidableEq W] in
theorem enlist_sameMain (s : Threads T S W) (t : T) : SameMain s (s.enlist t) := by
  rw [enlist]
  split
  · exact .error _
  · exact .ok rfl

omit [DecidableEq S] [DecidableEq W] in
theorem threadExit_sameMain (s : Threads T S W) (t : T) (needSchedule : Bool) :
    SameMain s (s.threadExit t needSchedule) := by
  rw [threadExit]
  split
  · exact .error _
  · refine .bind fun mp _ => ?_
    cases needSchedule with
    | false =>
      refine .ok ?_
      split <;> rfl
    | true =>
      intro s' hs'
      refine (schedule_sameMain _ s' hs').trans ?_
      split <;> rfl

omit [DecidableEq S] [DecidableEq W] in
theorem sysExit_sameMain (s : Threads T S W) (status : Int) : SameMain s (s.sysExit status) := by
  have hparents : ∀ (l : List T) (r : Threads T S W) (ppid : Int),
      (l.foldl (fun s t => s.modifyPcb t fun p =>
        if p.parentPid = ppid then { p with parentPid := 1 } else p) r).mainThread = r.mainThread := by
    intro l
    induction l with
    | nil => exact fun r ppid => rfl
    | cons t l ih =>
      intro r ppid
      exact ih _ _
  have hhang : ∀ r : Threads T S W, SameMain r r.wakeParentAndHang := by
    intro r
    rw [wakeParentAndHang]
    split
    · exact .error _
    · split
      · exact threadBlock_sameMain _ _
      · next parent _ =>
        by_cases hwait : r.statusOf parent = some .waiting
        · rw [if_pos hwait]
          refine .bind fun r₁ h₁ => ?_
          intro s' hs'
          exact (threadBlock_sameMain r₁ .hanging s' hs').trans (threadUnblock_sameMain r parent r₁ h₁)
        · rw [if_neg hwait]
          exact threadBlock_sameMain r .hanging
  rw [sysExit]
  split
  · exact .error _
  · split
    · exact .error _
    · intro s' hs'
      exact (hhang _ s' hs').trans (hparents ..)

omit [DecidableEq S] [DecidableEq W] in
theorem waitRound_sameMain (s : Threads T S W) (mine : Pcb → Bool) :
    SameMain s ((s.waitRound mine).map Prod.fst) := by
  intro s' hs'
  obtain ⟨⟨s₁, r⟩, h₁, rfl⟩ : ∃ x, s.waitRound mine = .ok x ∧ x.1 = s' := by
    cases hr : s.waitRound mine with
    | error e =>
      rw [hr] at hs'
      cases hs'
    | ok x =>
      rw [hr] at hs'
      cases hs'
      exact ⟨x, rfl, rfl⟩
  rw [waitRound] at h₁
  split at h₁
  · split at h₁
    · cases h₁
    · obtain ⟨s₂, h₂, hok⟩ := bind_eq_ok.mp h₁
      cases hok
      exact threadExit_sameMain _ _ _ _ h₂
  · split at h₁
    · cases h₁
      rfl
    · obtain ⟨s₂, h₂, hok⟩ := bind_eq_ok.mp h₁
      cases hok
      exact threadBlock_sameMain _ _ _ h₂

omit [DecidableEq S] [DecidableEq W] in
theorem sysFork_sameMain (s : Threads T S W) (mem : ForkMem T) :
    SameMain s ((s.sysFork mem).map Prod.fst) := by
  rw [sysFork]
  split
  · exact .error _
  · split
    · exact .ok rfl
    · split
      · exact .error _
      · split
        · exact .ok rfl
        · generalize allocPid (s.intrSetStatus .off).pidBitmap = x
          cases x with
          | error e => exact .error _
          | ok a =>
            cases mem with
            | enough t =>
              show SameMain s (Except.map Prod.fst (if _ then _ else _))
              split
              · generalize hr : enlist _ t = r
                cases r with
                | error e => exact .error _
                | ok s₁ =>
                  have hmain := enlist_sameMain _ _ _ hr
                  exact .ok hmain
              · exact .error _
            | noPageDir =>
              show SameMain s (Except.map Prod.fst (if _ then _ else _))
              split
              · exact .ok rfl
              · exact .error _
            | noPcb => exact .ok rfl
            | noTranPage => exact .ok rfl
            | noVaddrBitmap => exact .ok rfl

/-- No transition changes which thread is the main thread. -/
theorem exec_sameMain (s : Threads T S W) (op : Op T S W) : SameMain s (s.exec op) := by
  cases op with
  | tick =>
    rw [exec, intrTimerHandler]
    split
    · exact .error _
    · split
      · exact schedule_sameMain _
      · exact .ok rfl
  | up i =>
    rw [exec, semaUp]
    cases hw : (semaphoreUp (s.sema i)).2 with
    | none =>
      simp only [hw]
      exact .ok rfl
    | some t =>
      simp only [hw]
      exact threadUnblock_sameMain _ _
  | wakeup w =>
    rw [exec, wakeup]
    split
    · exact .error _
    · refine .bind fun s₁ h₁ => ?_
      have hmain := threadUnblock_sameMain _ _ _ h₁
      exact .ok hmain
  | intr status => exact .ok rfl
  | idle => exact threadBlock_sameMain s .blocked
  | yield =>
    rw [exec, threadYield]
    split
    · exact .error _
    · exact schedule_sameMain _
  | semaInit i value => exact .ok rfl
  | down i =>
    refine .bind fun a _ => ?_
    obtain ⟨sema, blocks⟩ := a
    cases blocks with
    | false => exact .ok rfl
    | true => exact threadBlock_sameMain (s.setSema i sema) .blocked
  | ioqWait w =>
    rw [exec, ioqWait]
    split
    · exact .error _
    · exact threadBlock_sameMain _ _
  | start t name priority =>
    refine .bind fun s₁ h₁ => ?_
    obtain ⟨pid, mp, -, rfl⟩ := initThread_eq_ok h₁
    exact enlist_sameMain _ _
  | fork mem => exact sysFork_sameMain s mem
  | exit status => exact sysExit_sameMain s status
  | wait pid => exact waitRound_sameMain s _
  | waitWithoutPid =>
    rw [exec, sysWaitWithoutPid]
    split
    · exact .error _
    · exact waitRound_sameMain s _
  | threadExit => exact threadExit_sameMain s _ true

/-! ## Every transition -/

omit [DecidableEq T] [DecidableEq S] [DecidableEq W] in
/-- The entry of a thread that is not dead. -/
theorem table_proc {p : Pcb} (hp : s.pcb t = some p) (hd : p.status ≠ .died) :
    s.table.proc t = some ⟨p.pid, p.parentPid, p.exitStatus, p.user, p.status = .hanging⟩ := by
  simp [table, hp, procOf, hd]

omit [DecidableEq T] [DecidableEq S] [DecidableEq W] in
/-- And back: where the entries come from. -/
theorem table_proc_eq_some {p : Proc} (hp : s.table.proc t = some p) :
    ∃ pcb, s.pcb t = some pcb ∧
      p = ⟨pcb.pid, pcb.parentPid, pcb.exitStatus, pcb.user, pcb.status = .hanging⟩ := by
  obtain ⟨pcb, hpcb, hproc⟩ := Option.bind_eq_some_iff.mp hp
  rw [procOf] at hproc
  split at hproc
  · cases hproc
  · cases hproc
    exact ⟨pcb, hpcb, rfl⟩

omit [DecidableEq T] [DecidableEq S] [DecidableEq W] in
theorem Inv.table_running (h : s.Inv) {p : Pcb} (hp : s.pcb s.running = some p) :
    s.table.proc s.running = some ⟨p.pid, p.parentPid, p.exitStatus, p.user, false⟩ := by
  obtain ⟨place, hagrees, hrun⟩ := h
  have hstatus := hagrees.status_running hrun
  rw [statusOf, hp] at hstatus
  have hs : p.status = .running := Option.some.inj hstatus
  rw [table_proc hp (by rw [hs]; rintro ⟨⟩), hs]
  rfl

omit [DecidableEq S] [DecidableEq W] in
/-- A round of `sys_wait` takes a hanging thread out, or nothing. -/
theorem Reaped.family (hf : Family init main s.table) {mine : Pcb → Bool} {r : WaitResult}
    (h : s.Reaped mine s' r) : Family init main s'.table := by
  cases r with
  | reaped pid exitStatus =>
    obtain ⟨child, p, mp, hp, hhang, -, rfl, -, hpid, htable⟩ := h
    rw [htable]
    have hproc := table_proc hp (by rw [hhang]; nofun)
    exact hf.remove hproc (.inl (by simp [hhang])) hpid
  | noChild =>
    rw [show s'.table = s.table from h]
    exact hf
  | blocked =>
    rw [show s'.table = s.table from h]
    exact hf

omit [DecidableEq S] [DecidableEq W] in
theorem Forked.family (hinv : s.Inv) (hmain : s.mainThread = main) (hf : Family init main s.table)
    {mem : ForkMem T} (hmem : ∀ t, mem = .enough t → s.pcb t = none) (h : s.Forked mem s') :
    Family init main s'.table := by
  obtain hkeep | ⟨parent, pid, mp, hparent, huser, hpid, hlost | ⟨t, ht, hspawn⟩⟩ := h
  · rw [hkeep]
    exact hf
  · rw [hlost]
    exact ⟨hf.toKinship.leak hpid, hf.init, hf.main⟩
  · have hnone : s.pcb t = none := hmem t ht
    have hproc : s.table.proc t = none := by simp [table, hnone]
    have htm : t ≠ main := by
      rw [← hmain]
      exact hinv.ne_main hnone
    have hrunning := hinv.table_running hparent
    rw [hspawn]
    exact hf.spawn hproc htm hpid (.inr ⟨s.running, _, hrunning, rfl, rfl, huser⟩)

omit [DecidableEq S] [DecidableEq W] in
/-- A transition keeps the family. -/
theorem Changes.family (hinv : s.Inv) (hmain : s.mainThread = main) (hf : Family init main s.table)
    {op : Op T S W} (hop : s.Enabled op) (h : s.Changes op s') : Family init main s'.table := by
  -- most of them do not change the table
  have hkeep : s'.table = s.table → Family init main s'.table := by
    intro he
    rw [he]
    exact hf
  cases op with
  | tick => exact hkeep h
  | up i => exact hkeep h
  | wakeup w => exact hkeep h
  | intr status => exact hkeep h
  | idle => exact hkeep h
  | yield => exact hkeep h
  | semaInit i value => exact hkeep h
  | down i => exact hkeep h
  | ioqWait w => exact hkeep h
  | start t name priority =>
    obtain ⟨pid, mp, hpid, hspawn⟩ := h
    have hnone : s.pcb t = none := hop.2
    have hproc : s.table.proc t = none := by simp [table, hnone]
    have htm : t ≠ main := by
      rw [← hmain]
      exact hinv.ne_main hnone
    rw [hspawn]
    exact hf.spawn hproc htm hpid (.inl rfl)
  | fork mem =>
    refine Forked.family hinv hmain hf (fun t ht => ?_) h
    subst ht
    exact hop.2
  | exit status =>
    obtain ⟨child, hchild, hparent, hexit⟩ := h
    rw [hexit]
    exact hf.exit (hinv.table_running hchild) hparent status
  | wait pid =>
    obtain ⟨r, -, hr⟩ := h
    exact Reaped.family hf hr
  | waitWithoutPid =>
    obtain ⟨parent, r, -, -, hr⟩ := h
    exact Reaped.family hf hr
  | threadExit =>
    obtain ⟨p, mp, hp, hpid, hremove⟩ := h
    have hproc := hinv.table_running hp
    -- it is the main thread that ends, and nobody's parent
    have hmain' : s.table.proc main = some ⟨p.pid, p.parentPid, p.exitStatus, p.user, false⟩ := by
      rw [← hmain, ← show s.running = s.mainThread from hop]
      exact hproc
    rw [hremove]
    exact hf.remove hproc (.inr (hf.main _ hmain')) hpid

/-! ## The first processes -/

omit [DecidableEq S] [DecidableEq W] in
/-- What `thread_init` puts into the table: `init`, the main thread and the idle thread. -/
theorem threadInit_table {init main idle : T} {value : S → UInt8} (hinit : init ≠ main)
    (hidle : main ≠ idle) (h : threadInit init main idle value = .ok s) :
    s.mainThread = main ∧ ∃ pid pid' mp mp' mp'', allocPid (bitmapInit 128) = .ok (1, mp) ∧
      allocPid mp = .ok (pid, mp') ∧ allocPid mp' = .ok (pid', mp'') ∧
      s.table = ((ProcTable.spawn ⟨fun _ => none, bitmapInit 128⟩ init ⟨1, -1, 0, true, false⟩ mp).spawn
        main ⟨pid, -1, 0, false, false⟩ mp').spawn idle ⟨pid', -1, 0, false, false⟩ mp'' := by
  obtain ⟨s₁, h₁, h⟩ := bind_eq_ok.mp h
  obtain ⟨s₂, h₂, h₃⟩ := bind_eq_ok.mp h
  have h₁ := processExecute_spawned hinit h₁
  have h₂ := makeMainThread_spawned h₂
  have hm₁ : s₁.mainThread = main := h₁.main
  have hm₂ : s₂.mainThread = main := h₂.main.trans hm₁
  have h₃ := threadStart_spawned (by rw [hm₂]; exact hidle.symm) h₃
  rw [hm₁] at h₂
  obtain ⟨one, mp, hone, ht₁⟩ := h₁.table
  obtain ⟨pid, mp', hpid, ht₂⟩ := h₂.table
  obtain ⟨pid', mp'', hpid', ht₃⟩ := h₃.table
  -- the first pid is that of `init`
  obtain rfl : one = 1 := by
    have hfirst := allocPid_first.1.symm.trans hone
    exact (congrArg Prod.fst (Except.ok.inj hfirst)).symm
  have hmp : s₁.pidBitmap = mp := congrArg ProcTable.pids ht₁
  have hmp' : s₂.pidBitmap = mp' := congrArg ProcTable.pids ht₂
  rw [hmp] at hpid
  rw [hmp'] at hpid'
  refine ⟨h₃.main.trans hm₂, pid, pid', mp, mp', mp'', hone, hpid, hpid', ?_⟩
  rw [ht₃, ht₂, ht₁]
  rfl

omit [DecidableEq S] [DecidableEq W] in
theorem threadInit_family {init main idle : T} {value : S → UInt8}
    (hne : init ≠ main ∧ init ≠ idle ∧ main ≠ idle)
    (h : threadInit init main idle value = .ok s) :
    s.mainThread = main ∧ Family init main s.table := by
  obtain ⟨hinit, hinit', hidle⟩ := hne
  obtain ⟨hmain, pid, pid', mp, mp', mp'', hone, hpid, hpid', htable⟩ :=
    threadInit_table hinit hidle h
  refine ⟨hmain, ?_⟩
  have hk₀ : Kinship (⟨fun _ => none, bitmapInit 128⟩ : ProcTable T) :=
    ⟨by simp, nofun, nofun, nofun⟩
  have hk₁ : Kinship (ProcTable.spawn ⟨fun _ => none, bitmapInit 128⟩ init ⟨1, -1, 0, true, false⟩
    mp) := hk₀.spawn rfl hone (.inl rfl)
  have hi₁ : (ProcTable.spawn ⟨fun _ => none, bitmapInit 128⟩ init ⟨1, -1, 0, true, false⟩ mp).proc
      init = some ⟨1, -1, 0, true, false⟩ := Function.update_self ..
  have hnone : ∀ u, u ≠ init → (ProcTable.spawn ⟨fun _ => none, bitmapInit 128⟩ init
      ⟨1, -1, 0, true, false⟩ mp).proc u = none := fun u hu => Function.update_of_ne hu ..
  have hpids : (ProcTable.spawn ⟨fun _ => none, bitmapInit 128⟩ init ⟨1, -1, 0, true, false⟩ mp).pids =
      mp := rfl
  generalize ProcTable.spawn ⟨fun _ => none, bitmapInit 128⟩ init ⟨1, -1, 0, true, false⟩ mp = a₁ at *
  rw [← hpids] at hpid
  have hf₂ : Family init main (a₁.spawn main ⟨pid, -1, 0, false, false⟩ mp') := by
    refine ⟨hk₁.spawn (hnone main hinit.symm) hpid (.inl rfl),
      ⟨⟨1, -1, 0, true, false⟩, ?_, rfl, rfl, rfl, rfl⟩, fun p hp => ?_⟩
    · exact (Function.update_of_ne hinit ..).trans hi₁
    · have hself : (a₁.spawn main ⟨pid, -1, 0, false, false⟩ mp').proc main =
          some ⟨pid, -1, 0, false, false⟩ := Function.update_self ..
      rw [hself] at hp
      cases hp
      rfl
  have hidle₂ : (a₁.spawn main ⟨pid, -1, 0, false, false⟩ mp').proc idle = none :=
    (Function.update_of_ne hidle.symm ..).trans (hnone idle hinit'.symm)
  rw [htable]
  exact hf₂.spawn hidle₂ hidle.symm hpid' (.inl rfl)

theorem Reachable.family {init main idle : T} (hne : init ≠ main ∧ init ≠ idle ∧ main ≠ idle)
    (h : Reachable init main idle s) :
    s.Inv ∧ s.mainThread = main ∧ Family init main s.table := by
  obtain ⟨value, s₀, h₀, hsteps⟩ := h
  induction hsteps with
  | refl => exact ⟨threadInit_inv hne h₀, threadInit_family hne h₀⟩
  | tail _ hstep ih =>
    obtain ⟨hinv, hmain, hf⟩ := ih
    obtain ⟨op, hop, hok⟩ := hstep
    obtain ⟨hinv', hchanges⟩ := exec_ok hinv hop hok
    exact ⟨hinv', (exec_sameMain _ op _ hok).trans hmain, hchanges.family hinv hmain hf hop⟩

/-! ## Runs with a log -/

/-- What the processes see of each other's end. -/
inductive Event (T : Type) where
  /-- `t` has called `sys_exit(status)`. -/
  | exit (t : T) (status : Int)
  /-- `reaper` has been given `value` for the end of `child`, whose parent was `parent`. -/
  | reap (reaper child : T) (value : Int) (parent : Option T)
  deriving DecidableEq

def Event.about (t : T) : Event T → Bool
  | .exit u _ => u = t
  | .reap _ u _ _ => u = t

/-- The event of a call that returns `r`: the child is looked up by the pid that is returned. -/
def reapEvent (s : Threads T S W) : Except SchedFault (Threads T S W × WaitResult) →
    Option (Event T)
  | .ok (_, .reaped pid exitStatus) => (s.pid2pcb pid).bind fun child =>
      (s.pcb child).map fun p => .reap s.running child exitStatus.toInt (s.pid2pcb p.parentPid)
  | _ => none

def event (s : Threads T S W) : Op T S W → Option (Event T)
  | .exit status => some (.exit s.running status)
  | .wait pid => s.reapEvent (s.sysWait pid)
  | .waitWithoutPid => s.reapEvent s.sysWaitWithoutPid
  | _ => none

/-- The runs of the kernel in which every transition meets `C`, with what has happened in
them, the last event first. -/
inductive Run (init main idle : T) (C : Threads T S W → Op T S W → Prop) :
    Threads T S W → List (Event T) → Prop
  | init {value : S → UInt8} {s : Threads T S W} (h : threadInit init main idle value = .ok s) :
      Run init main idle C s []
  | step {s s' : Threads T S W} {log : List (Event T)} {op : Op T S W}
      (h : Run init main idle C s log) (hop : s.Enabled op) (hC : C s op)
      (hok : s.exec op = .ok s') : Run init main idle C s' ((s.event op).toList ++ log)

theorem Run.reachable {idle : T} {C : Threads T S W → Op T S W → Prop} {log : List (Event T)}
    (h : Run init main idle C s log) : Reachable init main idle s := by
  induction h with
  | init h => exact ⟨_, _, h, .refl⟩
  | step _ hop _ hok ih =>
    obtain ⟨value, s₀, h₀, hsteps⟩ := ih
    exact ⟨value, s₀, h₀, hsteps.tail ⟨_, hop, hok⟩⟩

/-! ## Runs that can be evaluated -/

instance (s : Threads T S W) (op : Op T S W) : Decidable (s.Enabled op) :=
  match op with
  | .tick => inferInstanceAs (Decidable (s.intr = .on))
  | .up _ => inferInstanceAs (Decidable True)
  | .wakeup _ => inferInstanceAs (Decidable True)
  | .intr _ => inferInstanceAs (Decidable True)
  | .idle => inferInstanceAs (Decidable (s.running = s.idleThread))
  | .start t _ _ => inferInstanceAs (Decidable (s.running ≠ s.idleThread ∧ s.pcb t = none))
  | .fork (.enough t) => inferInstanceAs (Decidable (s.running ≠ s.idleThread ∧ s.pcb t = none))
  | .fork .noPcb => inferInstanceAs (Decidable (s.running ≠ s.idleThread))
  | .fork .noTranPage => inferInstanceAs (Decidable (s.running ≠ s.idleThread))
  | .fork .noVaddrBitmap => inferInstanceAs (Decidable (s.running ≠ s.idleThread))
  | .fork .noPageDir => inferInstanceAs (Decidable (s.running ≠ s.idleThread))
  | .yield => inferInstanceAs (Decidable (s.running ≠ s.idleThread))
  | .semaInit _ _ => inferInstanceAs (Decidable (s.running ≠ s.idleThread))
  | .down _ => inferInstanceAs (Decidable (s.running ≠ s.idleThread))
  | .ioqWait _ => inferInstanceAs (Decidable (s.running ≠ s.idleThread))
  | .exit _ => inferInstanceAs (Decidable (s.running ≠ s.idleThread))
  | .wait _ => inferInstanceAs (Decidable (s.running ≠ s.idleThread))
  | .waitWithoutPid => inferInstanceAs (Decidable (s.running ≠ s.idleThread))
  | .threadExit => inferInstanceAs (Decidable (s.running = s.mainThread))

/-- Plays the transitions one after the other, as long as each can happen and meets `C`. -/
def play (C : Threads T S W → Op T S W → Prop) [∀ s op, Decidable (C s op)] (s : Threads T S W)
    (log : List (Event T)) : List (Op T S W) → Except SchedFault (Threads T S W × List (Event T))
  | [] => .ok (s, log)
  | op :: ops =>
    if s.Enabled op ∧ C s op then do
      let s' ← s.exec op
      play C s' ((s.event op).toList ++ log) ops
    else .error (.other .assert)

theorem play_run {idle : T} {C : Threads T S W → Op T S W → Prop} [∀ s op, Decidable (C s op)]
    {log log' : List (Event T)} {ops : List (Op T S W)} (h : Run init main idle C s log)
    (hplay : s.play C log ops = .ok (s', log')) : Run init main idle C s' log' := by
  induction ops generalizing s log with
  | nil =>
    cases hplay
    exact h
  | cons op ops ih =>
    rw [play] at hplay
    split at hplay
    · next hop =>
      obtain ⟨s₁, hok, hplay⟩ := bind_eq_ok.mp hplay
      exact ih (h.step hop.1 hop.2 hok) hplay
    · cases hplay

/-- A run from `thread_init`, by its log. -/
theorem run_of_log {idle : T} {C : Threads T S W → Op T S W → Prop} [∀ s op, Decidable (C s op)]
    (value : S → UInt8) (ops : List (Op T S W)) {log : List (Event T)}
    (h : ((threadInit init main idle value : Except SchedFault (Threads T S W)).bind
      fun s => s.play C [] ops).map Prod.snd = .ok log) :
    ∃ s : Threads T S W, Run init main idle C s log := by
  generalize hs₀ : (threadInit init main idle value : Except SchedFault (Threads T S W)) = r at h
  cases r with
  | error e => cases h
  | ok s₀ =>
    cases hplay : s₀.play C [] ops with
    | error e =>
      simp only [Except.bind, hplay] at h
      cases h
    | ok x =>
      simp only [Except.bind, hplay] at h
      cases h
      exact ⟨x.1, play_run (.init hs₀) hplay⟩

/-! ## Parents -/

/-- **Parents are alive.** In every state that the kernel reaches, the parent of each thread
that has one is exactly one thread of the list of all threads, and it does not hang. So a
hanging thread has no children, and the next pid of `alloc_pid` is nobody's and no parent's:
who gets it adopts no children with it. -/
theorem parents_alive {init main idle : T} (hne : init ≠ main ∧ init ≠ idle ∧ main ≠ idle)
    (h : Reachable init main idle s) :
    (∀ t p, t ∈ s.allList → s.pcb t = some p → p.parentPid ≠ -1 →
      (∃! u, u ∈ s.allList ∧ (s.pcb u).map Pcb.pid = some p.parentPid) ∧
      ∀ u, u ∈ s.allList → (s.pcb u).map Pcb.pid = some p.parentPid →
        s.statusOf u ≠ some .hanging) ∧
    (∀ t p u q, t ∈ s.allList → s.pcb t = some p → u ∈ s.allList → s.pcb u = some q →
      q.status = .hanging → p.parentPid ≠ q.pid) ∧
    ∀ pid mp, allocPid s.pidBitmap = .ok (pid, mp) →
      ∀ t p, t ∈ s.allList → s.pcb t = some p → p.pid ≠ pid ∧ p.parentPid ≠ pid := by
  obtain ⟨⟨place, hagrees, -⟩, -, hf⟩ := h.family hne
  -- the entry of a thread of the list
  have hentry : ∀ {t p}, t ∈ s.allList → s.pcb t = some p →
      s.table.proc t = some ⟨p.pid, p.parentPid, p.exitStatus, p.user, p.status = .hanging⟩ := by
    intro t p ht hp
    obtain ⟨q, hq⟩ := Option.ne_none_iff_exists'.mp (hagrees.mem_table.mp ht)
    obtain ⟨p', hp', rfl⟩ := table_proc_eq_some hq
    rw [hp] at hp'
    cases hp'
    exact hq
  have hparent : ∀ {t p}, t ∈ s.allList → s.pcb t = some p → p.parentPid ≠ -1 →
      ∃ u q, u ∈ s.allList ∧ s.pcb u = some q ∧ q.pid = p.parentPid ∧ q.status ≠ .hanging := by
    intro t p ht hp hne
    obtain ⟨u, r, hr, hrpid, hrh, -⟩ := hf.parent t _ (hentry ht hp) hne
    obtain ⟨q, hq, rfl⟩ := table_proc_eq_some hr
    exact ⟨u, q, hagrees.mem_table.mpr (by rw [hr]; nofun), hq, hrpid, of_decide_eq_false hrh⟩
  have hunique : ∀ {u v q r}, u ∈ s.allList → s.pcb u = some q → v ∈ s.allList → s.pcb v = some r →
      q.pid = r.pid → u = v :=
    fun hu hq hv hr he => hf.unique _ _ _ _ (hentry hu hq) (hentry hv hr) he
  refine ⟨fun t p ht hp hpp => ?_, fun t p u q ht hp hu hq hhang he => ?_,
    fun pid mp hpid t p ht hp => ?_⟩
  · obtain ⟨u, q, hu, hq, hqp, hqh⟩ := hparent ht hp hpp
    have honly : ∀ v, v ∈ s.allList → (s.pcb v).map Pcb.pid = some p.parentPid → v = u := by
      intro v hv hvp
      obtain ⟨r, hr, hrp⟩ := Option.map_eq_some_iff.mp hvp
      exact hunique hv hr hu hq (hrp.trans hqp.symm)
    refine ⟨⟨u, ⟨hu, by rw [hq, Option.map_some, hqp]⟩, fun v hv => honly v hv.1 hv.2⟩,
      fun v hv hvp => ?_⟩
    rw [honly v hv hvp, statusOf, hq]
    exact fun he => hqh (Option.some.inj he)
  · obtain ⟨i, -, hi, -⟩ := hf.pid u _ (hentry hu hq)
    have hpp : p.parentPid ≠ -1 := by
      rw [he]
      simp only at hi
      omega
    obtain ⟨v, r, hv, hr, hrp, hrh⟩ := hparent ht hp hpp
    obtain rfl := hunique hv hr hu hq (hrp.trans he)
    rw [hq] at hr
    cases hr
    exact hrh hhang
  · exact hf.toKinship.fresh hpid (hentry ht hp)

/-- Right after `init` has forked: the child on page 3 has exactly one parent. -/
theorem parents_alive_fork :
    ∃ s : Threads (Fin 4) Unit Unit, Reachable 0 1 2 s ∧ 3 ∈ s.allList ∧
      ∃! u, u ∈ s.allList ∧ (s.pcb u).map Pcb.pid = some 1 := by
  have hne : (0 : Fin 4) ≠ 1 ∧ (0 : Fin 4) ≠ 2 ∧ (1 : Fin 4) ≠ 2 := by decide
  obtain ⟨s₀, h₀⟩ := threadInit_ok (S := Unit) (W := Unit) (fun _ => 1) hne
  obtain ⟨s, hs, hall, hparent⟩ : ∃ s : Threads (Fin 4) Unit Unit, Reachable 0 1 2 s ∧
      3 ∈ s.allList ∧ (s.pcb 3).map Pcb.parentPid = some 1 := by
    have hend : (s₀.play (fun _ _ => True) [] [.yield, .fork (.enough 3)]).map (fun x =>
        (decide (3 ∈ x.1.allList), (x.1.pcb 3).map Pcb.parentPid)) = .ok (true, some 1) := by
      have hsame : (Except.bind (threadInit 0 1 2 fun _ => 1 : Except SchedFault (Threads (Fin 4) Unit
          Unit)) fun s => (s.play (fun _ _ => True) [] [.yield, .fork (.enough 3)]).map (fun x =>
          (decide (3 ∈ x.1.allList), (x.1.pcb 3).map Pcb.parentPid))) = .ok (true, some 1) := by
        decide +kernel
      rw [h₀] at hsame
      exact hsame
    cases hplay : s₀.play (fun _ _ => True) [] [.yield, .fork (.enough 3)] with
    | error e =>
      rw [hplay] at hend
      cases hend
    | ok x =>
      rw [hplay] at hend
      have hx := Except.ok.inj hend
      have hrun : Run 0 1 2 (fun _ _ => True) x.1 x.2 := play_run (.init h₀) hplay
      exact ⟨x.1, hrun.reachable, of_decide_eq_true (congrArg Prod.fst hx), congrArg Prod.snd hx⟩
  obtain ⟨p, hp, hpp⟩ := Option.map_eq_some_iff.mp hparent
  have hone := ((parents_alive hne hs).1 3 p hall hp (by rw [hpp]; decide)).1
  rw [hpp] at hone
  exact ⟨s, hs, hall, hone⟩

/-! ## The protocol -/

/-- What the protocol promises of a log. -/
structure Orderly (log : List (Event T)) : Prop where
  /-- Who reaps is the parent. -/
  parent : ∀ reaper child value parent, Event.reap reaper child value parent ∈ log →
    parent = some reaper
  /-- The last that has been heard of the child is that it has exited with this status. -/
  value : ∀ later reaper child value parent earlier,
    log = later ++ .reap reaper child value parent :: earlier →
    earlier.find? (Event.about child) = some (.exit child value)
  /-- Between two reaps of a page, a process on it has exited. -/
  once : ∀ later reaper child value parent between reaper' value' parent' earlier,
    log = later ++ .reap reaper child value parent ::
      (between ++ .reap reaper' child value' parent' :: earlier) →
    ∃ status, Event.exit child status ∈ between

theorem Orderly.nil : Orderly (T := T) [] := by
  constructor <;> simp

/-- An exit is always in order. -/
theorem Orderly.exit {log : List (Event T)} (h : Orderly log) (t : T) (status : Int) :
    Orderly (.exit t status :: log) := by
  have htail : ∀ {later e earlier}, (∀ t status, e ≠ Event.exit t status) →
      Event.exit t status :: log = later ++ e :: earlier → ∃ l, log = l ++ e :: earlier := by
    intro later e earlier he hlog
    cases later with
    | nil => exact absurd (List.cons.inj hlog).1.symm (he t status)
    | cons _ l => exact ⟨l, (List.cons.inj hlog).2⟩
  constructor
  · intro reaper child value parent hm
    cases hm with
    | tail _ hm => exact h.parent reaper child value parent hm
  · intro later reaper child value parent earlier hlog
    obtain ⟨l, hl⟩ := htail (by rintro _ _ ⟨⟩) hlog
    exact h.value l _ _ _ _ _ hl
  · intro later reaper child value parent between reaper' value' parent' earlier hlog
    obtain ⟨l, hl⟩ := htail (by rintro _ _ ⟨⟩) hlog
    exact h.once l _ _ _ _ _ _ _ _ _ hl

/-- The parent reaps a child whose exit is the last that has been heard of it. -/
theorem Orderly.reap {log : List (Event T)} (h : Orderly log) {reaper child : T} {value : Int}
    (hexit : log.find? (Event.about child) = some (.exit child value)) :
    Orderly (.reap reaper child value (some reaper) :: log) := by
  constructor
  · intro reaper' child' value' parent' hm
    cases hm with
    | head => rfl
    | tail _ hm => exact h.parent _ _ _ _ hm
  · intro later reaper' child' value' parent' earlier hlog
    cases later with
    | nil =>
      obtain ⟨he, rfl⟩ := List.cons.inj hlog
      cases he
      exact hexit
    | cons _ l => exact h.value l _ _ _ _ _ (List.cons.inj hlog).2
  · intro later reaper₁ child₁ value₁ parent₁ between reaper₂ value₂ parent₂ earlier hlog
    cases later with
    | nil =>
      obtain ⟨he, rfl⟩ := List.cons.inj hlog
      cases he
      -- the exit that has been found is later than the first reap
      rw [List.find?_append] at hexit
      cases hb : between.find? (Event.about child) with
      | none =>
        rw [hb] at hexit
        simp [Event.about] at hexit
      | some e =>
        rw [hb] at hexit
        have he : e = .exit child value := Option.some.inj hexit
        subst he
        exact ⟨value, List.mem_of_find?_eq_some hb⟩
    | cons _ l => exact h.once l _ _ _ _ _ _ _ _ _ (List.cons.inj hlog).2

/-- What the hanging threads have in the log. -/
def Zombies (a : ProcTable T) (log : List (Event T)) : Prop :=
  ∀ t p, a.proc t = some p → p.hanging = true →
    log.find? (Event.about t) = some (.exit t p.exitStatus.toInt)

/-- The caller of `sys_exit` has a status that the field `exit_status` can hold, and what the
caller of `sys_wait` would reap is a child of its own. -/
def Proper (s : Threads T S W) : Op T S W → Prop
  | .exit status => -2 ^ 7 ≤ status ∧ status < 2 ^ 7
  | .wait pid => ∀ t ∈ s.allList,
      (s.pcb t).any (fun p => p.pid = pid && p.status = .hanging) = true →
      (s.pcb t).map Pcb.parentPid = (s.pcb s.running).map Pcb.pid
  | _ => True

theorem Zombies.spawn {log : List (Event T)} (h : Zombies a log) {p : Proc} {mp : Bitmap}
    (hp : p.hanging = false) : Zombies (a.spawn t p mp) log := by
  intro u q hq hh
  by_cases hu : u = t
  · have hself : (a.spawn t p mp).proc t = some p := Function.update_self ..
    rw [hu, hself] at hq
    cases hq
    rw [hp] at hh
    cases hh
  · have hold : (a.spawn t p mp).proc u = a.proc u := Function.update_of_ne hu ..
    exact h u q (hold.symm.trans hq) hh

/-- A thread goes, with or without an event about it. -/
theorem Zombies.remove {log : List (Event T)} (h : Zombies a log) {mp : Bitmap} {e : Option (Event T)}
    (he : ∀ u, e.any (Event.about u) = true → u = t) : Zombies (a.remove t mp) (e.toList ++ log) := by
  intro u q hq hh
  by_cases hu : u = t
  · have hgone : (a.remove t mp).proc t = none := Function.update_self ..
    rw [hu, hgone] at hq
    cases hq
  · have hold : (a.remove t mp).proc u = a.proc u := Function.update_of_ne hu ..
    have hlog := h u q (hold.symm.trans hq) hh
    cases e with
    | none => exact hlog
    | some e =>
      have hnot : Event.about u e = false := by
        by_contra habout
        exact hu (he u (by simpa using habout))
      rw [Option.toList_some, List.singleton_append, List.find?_cons, hnot]
      exact hlog

theorem Zombies.exit {log : List (Event T)} (h : Zombies a log) {pid : Int} {status : Int}
    (hstatus : -2 ^ 7 ≤ status ∧ status < 2 ^ 7) :
    Zombies (a.exit t pid status) (.exit t status :: log) := by
  intro u q hq hh
  obtain ⟨p, hp, rfl⟩ := Option.map_eq_some_iff.mp hq
  by_cases hu : u = t
  · rw [if_pos hu, hu]
    simp [Event.about, Int8.toInt_ofInt_of_le hstatus.1 hstatus.2]
  · have hadopt : (p.adopt pid).hanging = p.hanging ∧ (p.adopt pid).exitStatus = p.exitStatus := by
      rw [Proc.adopt]
      split <;> exact ⟨rfl, rfl⟩
    rw [if_neg hu] at hh ⊢
    rw [hadopt.1] at hh
    have hnot : Event.about u (.exit t status) = false := decide_eq_false (Ne.symm hu)
    rw [hadopt.2, List.find?_cons, hnot]
    exact h u p hp hh

omit [DecidableEq T] [DecidableEq S] [DecidableEq W] in
/-- `pid2pcb` finds the thread of that pid. -/
theorem pid2pcb_eq (hinv : s.Inv) (hf : Family init main s.table) {p : Pcb} (hp : s.pcb t = some p)
    (hd : p.status ≠ .died) : s.pid2pcb p.pid = some t := by
  obtain ⟨place, hagrees, -⟩ := hinv
  have hproc := table_proc hp hd
  have hall : t ∈ s.allList := hagrees.mem_table.mpr (by rw [hproc]; nofun)
  cases hfind : s.pid2pcb p.pid with
  | none =>
    have hnone := List.find?_eq_none.mp hfind t hall
    simp [hp] at hnone
  | some u =>
    obtain ⟨q, hq, hqp⟩ := findThread_some hfind
    have hqp : q.pid = p.pid := of_decide_eq_true hqp
    -- what is found is in the list too, and pids are unique
    obtain ⟨r, hr⟩ := Option.ne_none_iff_exists'.mp
      (hagrees.mem_table.mp (List.mem_of_find?_eq_some hfind))
    obtain ⟨q', hq', rfl⟩ := table_proc_eq_some hr
    rw [hq] at hq'
    cases hq'
    exact congrArg some (hf.unique u t _ _ hr hproc hqp)

omit [DecidableEq S] [DecidableEq W] in
/-- A round of `sys_wait` in which the thread that is reaped, if any, is a child of the caller. -/
theorem Reaped.orderly (hinv : s.Inv) (hf : Family init main s.table) {log : List (Event T)}
    (hlog : Orderly log) (hz : Zombies s.table log) {mine : Pcb → Bool} {r : WaitResult}
    (h : s.Reaped mine s' r) {now : Pcb} (hnow : s.pcb s.running = some now)
    (hmine : ∀ t p, s.pcb t = some p → p.status = .hanging → mine p = true → p.parentPid = now.pid) :
    Orderly ((s.reapEvent (.ok (s', r))).toList ++ log) ∧
      Zombies s'.table ((s.reapEvent (.ok (s', r))).toList ++ log) := by
  cases r with
  | reaped pid exitStatus =>
    obtain ⟨child, p, mp, hp, hhang, hm, rfl, rfl, hpid, htable⟩ := h
    have hd : p.status ≠ .died := by rw [hhang]; rintro ⟨⟩
    have hproc := table_proc hp hd
    obtain ⟨place, hagrees, hrun⟩ := hinv
    have hrunning : now.status = .running := by
      have hst := hagrees.status_running hrun
      rw [statusOf, hnow] at hst
      exact Option.some.inj hst
    have hchild := pid2pcb_eq ⟨place, hagrees, hrun⟩ hf hp hd
    have hparent := pid2pcb_eq ⟨place, hagrees, hrun⟩ hf hnow (by rw [hrunning]; rintro ⟨⟩)
    rw [← hmine child p hp hhang hm] at hparent
    have hevent : s.reapEvent (.ok (s', .reaped p.pid p.exitStatus)) =
        some (.reap s.running child p.exitStatus.toInt (some s.running)) := by
      simp [reapEvent, hchild, hp, hparent]
    have hexit := hz child _ hproc (decide_eq_true hhang)
    rw [hevent, htable]
    refine ⟨hlog.reap hexit, hz.remove fun u hu => ?_⟩
    exact (of_decide_eq_true hu).symm
  | noChild =>
    rw [show s'.table = s.table from h]
    exact ⟨hlog, hz⟩
  | blocked =>
    rw [show s'.table = s.table from h]
    exact ⟨hlog, hz⟩

omit [DecidableEq S] [DecidableEq W] in
/-- One transition keeps the log in order. -/
theorem Changes.orderly (hinv : s.Inv) (hf : Family init main s.table) {log : List (Event T)}
    (hlog : Orderly log) (hz : Zombies s.table log) {op : Op T S W} (hC : s.Proper op)
    (h : s.Changes op s') :
    Orderly ((s.event op).toList ++ log) ∧ Zombies s'.table ((s.event op).toList ++ log) := by
  have hkeep : s'.table = s.table → Orderly log ∧ Zombies s'.table log := by
    intro he
    rw [he]
    exact ⟨hlog, hz⟩
  cases op with
  | tick => exact hkeep h
  | up i => exact hkeep h
  | wakeup w => exact hkeep h
  | intr status => exact hkeep h
  | idle => exact hkeep h
  | yield => exact hkeep h
  | semaInit i value => exact hkeep h
  | down i => exact hkeep h
  | ioqWait w => exact hkeep h
  | start t name priority =>
    obtain ⟨pid, mp, -, hspawn⟩ := h
    rw [hspawn]
    exact ⟨hlog, hz.spawn rfl⟩
  | fork mem =>
    obtain hsame | ⟨parent, pid, mp, -, -, -, hlost | ⟨t, -, hspawn⟩⟩ := h
    · exact hkeep hsame
    · rw [hlost]
      exact ⟨hlog, hz⟩
    · rw [hspawn]
      exact ⟨hlog, hz.spawn rfl⟩
  | exit status =>
    obtain ⟨child, -, -, hexit⟩ := h
    rw [hexit]
    exact ⟨hlog.exit s.running status, hz.exit hC⟩
  | wait pid =>
    obtain ⟨r, hr, hreaped⟩ := h
    rw [event, hr]
    obtain ⟨place, hagrees, hrun⟩ := hinv
    obtain ⟨now, hnow⟩ : ∃ now, s.pcb s.running = some now := by
      have hst := hagrees.status_running hrun
      obtain ⟨now, hnow, -⟩ := Option.map_eq_some_iff.mp hst
      exact ⟨now, hnow⟩
    refine Reaped.orderly ⟨place, hagrees, hrun⟩ hf hlog hz hreaped hnow fun t p hp hhang hm => ?_
    have hproc := table_proc hp (by rw [hhang]; nofun)
    have hmem : t ∈ s.allList := hagrees.mem_table.mpr (by rw [hproc]; nofun)
    have hmine := hC t hmem (by rw [hp]; simpa [hhang] using hm)
    rw [hp, hnow] at hmine
    exact Option.some.inj hmine
  | waitWithoutPid =>
    obtain ⟨parent, r, hparent, hr, hreaped⟩ := h
    rw [event, hr]
    exact Reaped.orderly hinv hf hlog hz hreaped hparent fun t p _ _ hm => of_decide_eq_true hm
  | threadExit =>
    obtain ⟨p, mp, -, -, hremove⟩ := h
    rw [hremove]
    have hgone : Zombies (s.table.remove s.running mp) ((none : Option (Event T)).toList ++ log) :=
      hz.remove nofun
    exact ⟨hlog, hgone⟩

/-- **Exit and wait.** In every run of the kernel in which each status passed to `sys_exit`
fits the field `exit_status`, and `sys_wait` is not called with the pid of somebody else's
hanging child, a process is reaped at most once, by its parent, who is given the status that
the process has passed to `sys_exit`. -/
theorem exit_wait_protocol {init main idle : T} (hne : init ≠ main ∧ init ≠ idle ∧ main ≠ idle)
    {log : List (Event T)} (h : Run init main idle Proper s log) : Orderly log := by
  suffices hboth : Orderly log ∧ Zombies s.table log from hboth.1
  induction h with
  | init h =>
    -- the first three threads are alive
    obtain ⟨-, pid, pid', mp, mp', mp'', -, -, -, htable⟩ := threadInit_table hne.1 hne.2.2 h
    have hnone : Zombies (⟨fun _ => none, bitmapInit 128⟩ : ProcTable T) [] := nofun
    rw [htable]
    exact ⟨.nil, ((hnone.spawn rfl).spawn rfl).spawn rfl⟩
  | step hrun hop hC hok ih =>
    obtain ⟨hinv, -, hf⟩ := hrun.reachable.family hne
    exact (exec_ok hinv hop hok).2.orderly hinv hf ih.1 ih.2 hC

instance (s : Threads T S W) (op : Op T S W) : Decidable (s.Proper op) :=
  match op with
  | .exit status => inferInstanceAs (Decidable (-2 ^ 7 ≤ status ∧ status < 2 ^ 7))
  | .wait pid => inferInstanceAs (Decidable (∀ t ∈ s.allList,
      (s.pcb t).any (fun p => p.pid = pid && p.status = .hanging) = true →
      (s.pcb t).map Pcb.parentPid = (s.pcb s.running).map Pcb.pid))
  | .tick => inferInstanceAs (Decidable True)
  | .up _ => inferInstanceAs (Decidable True)
  | .wakeup _ => inferInstanceAs (Decidable True)
  | .intr _ => inferInstanceAs (Decidable True)
  | .idle => inferInstanceAs (Decidable True)
  | .yield => inferInstanceAs (Decidable True)
  | .semaInit _ _ => inferInstanceAs (Decidable True)
  | .down _ => inferInstanceAs (Decidable True)
  | .ioqWait _ => inferInstanceAs (Decidable True)
  | .start _ _ _ => inferInstanceAs (Decidable True)
  | .fork _ => inferInstanceAs (Decidable True)
  | .waitWithoutPid => inferInstanceAs (Decidable True)
  | .threadExit => inferInstanceAs (Decidable True)

/-- `init` forks and waits; the child exits with 7. -/
theorem exit_wait_protocol_seven :
    (∃ s : Threads (Fin 4) Unit Unit, Run 0 1 2 Proper s [.reap 0 3 7 (some 0), .exit 3 7]) ∧
      Orderly ([.reap 0 3 7 (some 0), .exit 3 7] : List (Event (Fin 4))) := by
  have hne : (0 : Fin 4) ≠ 1 ∧ (0 : Fin 4) ≠ 2 ∧ (1 : Fin 4) ≠ 2 := by decide
  obtain ⟨s, hs⟩ : ∃ s : Threads (Fin 4) Unit Unit,
      Run 0 1 2 Proper s [.reap 0 3 7 (some 0), .exit 3 7] :=
    run_of_log (fun _ => 1)
      [.yield, .fork (.enough 3), .wait 4, .idle, .yield, .exit 7, .wait 4] (by decide +kernel)
  exact ⟨⟨s, hs⟩, exit_wait_protocol hne hs⟩

/-- Without the condition the protocol fails. In one run `init` is given 44 for a child that
has exited with 300; in another it reaps, by its pid, a child of its child. -/
theorem exit_wait_protocol_fails :
    ((∃ s : Threads (Fin 4) Unit Unit, Run 0 1 2 (fun _ _ => True) s
        [.reap 0 3 44 (some 0), .exit 3 300]) ∧
      ¬ Orderly ([.reap 0 3 44 (some 0), .exit 3 300] : List (Event (Fin 4)))) ∧
    (∃ s : Threads (Fin 5) Unit Unit, Run 0 1 2 (fun _ _ => True) s
        [.reap 0 4 0 (some 3), .exit 4 0]) ∧
      ¬ Orderly ([.reap 0 4 0 (some 3), .exit 4 0] : List (Event (Fin 5))) := by
  refine ⟨⟨?_, fun h => ?_⟩, ?_, fun h => ?_⟩
  · exact run_of_log (fun _ => 1)
      [.yield, .fork (.enough 3), .wait 4, .idle, .yield, .exit 300, .wait 4] (by decide +kernel)
  · have hvalue := h.value [] 0 3 44 (some 0) [.exit 3 300] rfl
    revert hvalue
    decide
  · exact run_of_log (fun _ => 1)
      [.yield, .fork (.enough 3), .yield, .idle, .yield, .fork (.enough 4), .yield, .yield, .yield,
        .exit 0, .yield, .wait 5] (by decide +kernel)
  · have hparent := h.parent 0 4 0 (some 3) List.mem_cons_self
    revert hparent
    decide

end Threads

end GwOS
