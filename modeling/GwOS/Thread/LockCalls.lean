import GwOS.Thread.Sync

/-!
# A lock as its caller sees it (`thread/sync.c`)

A function that takes a lock once, works, and gives it back moves through four stages:
outside, in `lock_acquire`, holding the lock, in `lock_release`. The statements of
`LockSys` move a thread from one stage to the next one and leave the stages of the other
threads alone.

- `exec_acquiring`, `exec_releasing`: a statement of a call stays in the call, or ends it
  with the lock taken or given back.
- `exec_other`: the other threads keep their stage.
-/

namespace GwOS

namespace LockSys

variable {T L : Type*} [DecidableEq T] [DecidableEq L] {s s' : LockSys T L} {t u : T} {l : L}

/-- The statements of `lock_acquire` up to the one that takes the lock. -/
def InAcquire (l : L) (pc : LockPc L) : Prop :=
  pc = .testHolder l ∨ pc = .down l ∨ pc = .blocked l ∨ pc = .setHolder l ∨ pc = .assertZero l ∨
    pc = .setCnt l

/-- The statements of the `lock_release` that gives the lock back. -/
def InRelease (l : L) (pc : LockPc L) : Prop :=
  pc = .testCnt l ∨ pc = .assertOne l ∨ pc = .clearHolder l ∨ pc = .clearCnt l ∨ pc = .up l

/-- The stage of a thread that takes the lock `l` once and gives it back. -/
inductive Stage where
  | outside
  | acquiring
  | holding
  | releasing
  deriving DecidableEq

/-- The thread is in the stage. -/
def At (s : LockSys T L) (t : T) (l : L) : Stage → Prop
  | .outside => s.pc t = .idle ∧ s.depth t l = 0
  | .acquiring => InAcquire l (s.pc t) ∧ s.depth t l = 0
  | .holding => s.pc t = .idle ∧ s.depth t l = 1
  | .releasing => InRelease l (s.pc t) ∧ s.depth t l = 1

omit [DecidableEq T] [DecidableEq L] in
theorem at_init (t : T) (l : L) : (init : LockSys T L).At t l .outside := ⟨rfl, rfl⟩

/-! ## The calls -/

omit [DecidableEq L] in
theorem At.acquire (h : s.At t l .outside) : (s.goto t (.testHolder l)).At t l .acquiring :=
  ⟨.inl (Function.update_self ..), h.2⟩

omit [DecidableEq L] in
theorem At.release (h : s.At t l .holding) : (s.goto t (.testCnt l)).At t l .releasing :=
  ⟨.inl (Function.update_self ..), h.2⟩

omit [DecidableEq L] in
/-- A call of one thread is nothing to the others. -/
theorem At.goto_other {g : Stage} (h : s.At u l g) (hu : u ≠ t) (pc : LockPc L) :
    (s.goto t pc).At u l g := by
  have hpc : (s.goto t pc).pc u = s.pc u := Function.update_of_ne hu ..
  cases g <;> exact ⟨hpc ▸ h.1, h.2⟩

/-! ## The statements -/

omit [DecidableEq T] [DecidableEq L] in
/-- Being woken leaves a thread in its stage: from `thread_block` back to the test of the
loop. -/
theorem At.woken {g : Stage} (h : s.At u l g) (hd : s'.depth u = s.depth u)
    (hpc : s'.pc u = s.pc u ∨ ∃ l', s.pc u = .blocked l' ∧ s'.pc u = .down l') :
    s'.At u l g := by
  rcases hpc with hpc | ⟨l', hb, hdown⟩
  · cases g <;> exact ⟨hpc ▸ h.1, hd ▸ h.2⟩
  · cases g with
    | outside | holding => exact absurd (hb.symm.trans h.1) nofun
    | acquiring =>
      have hl : l' = l := by
        have := h.1
        simp only [InAcquire, hb] at this
        simpa using this
      exact ⟨.inr (.inl (hl ▸ hdown)), hd ▸ h.2⟩
    | releasing =>
      have := h.1
      simp [InRelease, hb] at this

omit [DecidableEq L] in
/-- What `thread_unblock` does to a thread. -/
theorem wake_pc (s : LockSys T L) (w : Option T) (u : T) :
    (s.wake w).pc u = s.pc u ∨ ∃ l, s.pc u = .blocked l ∧ (s.wake w).pc u = .down l := by
  rcases w with _ | v
  · exact .inl rfl
  · rw [wake]
    split
    · rename_i l hb
      by_cases hu : u = v
      · subst hu
        exact .inr ⟨l, hb, Function.update_self ..⟩
      · exact .inl (Function.update_of_ne hu ..)
    · exact .inl rfl

omit [DecidableEq L] in
@[simp]
theorem wake_depth (s : LockSys T L) (w : Option T) : (s.wake w).depth = s.depth := by
  rcases w with _ | v
  · rfl
  · rw [wake]
    split <;> rfl

omit [DecidableEq L] in
theorem goto_pc_ne (s : LockSys T L) (hu : u ≠ t) (pc : LockPc L) : (s.goto t pc).pc u = s.pc u :=
  Function.update_of_ne hu ..

theorem setDepth_ne (s : LockSys T L) (hu : u ≠ t) (n : Nat) :
    (s.setDepth t l n).depth u = s.depth u := Function.update_of_ne hu ..

/-- What a statement does to the other threads: one that is blocked may be woken. -/
theorem exec_cases_other (he : s.exec t = some (.ok s')) (hu : u ≠ t) :
    s'.depth u = s.depth u ∧
      (s'.pc u = s.pc u ∨ ∃ l, s.pc u = .blocked l ∧ s'.pc u = .down l) := by
  cases hpc : s.pc t with
  | idle | blocked l => simp [LockSys.exec, hpc] at he
  | testHolder l | testCnt l =>
    simp only [LockSys.exec, hpc] at he
    split at he <;> cases he <;> exact ⟨rfl, .inl (goto_pc_ne _ hu _)⟩
  | down l =>
    simp only [LockSys.exec, hpc] at he
    split at he
    · cases he
    · cases he
      exact ⟨rfl, .inl (goto_pc_ne _ hu _)⟩
  | assertZero l | assertOne l =>
    simp only [LockSys.exec, hpc] at he
    split at he
    · cases he
      exact ⟨rfl, .inl (goto_pc_ne _ hu _)⟩
    · cases he
  | setHolder l | clearHolder l | clearCnt l =>
    simp only [LockSys.exec, hpc] at he
    cases he
    exact ⟨rfl, .inl (goto_pc_ne _ hu _)⟩
  | setCnt l | incCnt l | decCnt l =>
    simp only [LockSys.exec, hpc] at he
    cases he
    exact ⟨setDepth_ne _ hu _, .inl (goto_pc_ne _ hu _)⟩
  | up l =>
    simp only [LockSys.exec, hpc] at he
    cases he
    constructor
    · rw [wake_depth]
      exact setDepth_ne _ hu _
    · have hpcu := goto_pc_ne ((s.setLock l { s.lock l with
        semaphore := (semaphoreUp (s.lock l).semaphore).1 }).setDepth t l (s.depth t l - 1)) hu .idle
      have hw := wake_pc (((s.setLock l { s.lock l with
        semaphore := (semaphoreUp (s.lock l).semaphore).1 }).setDepth t l
        (s.depth t l - 1)).goto t .idle) (semaphoreUp (s.lock l).semaphore).2 u
      rw [hpcu] at hw
      exact hw

theorem exec_other {g : Stage} (he : s.exec t = some (.ok s')) (hu : u ≠ t) (h : s.At u l g) :
    s'.At u l g := by
  obtain ⟨hd, hpc⟩ := exec_cases_other he hu
  exact h.woken hd hpc

/-- A thread that is not in `lock_release` and does not have the lock is not its holder. -/
theorem Inv.not_holder (h : Inv s) (hpc : s.pc t = .testHolder l) (hd : s.depth t l = 0) :
    (s.lock l).holder ≠ some t := by
  have hv : s.viewOf l t = if s.depth t l = 0 then none else some (some t, s.depth t l) := by
    rw [viewOf, hpc]
    rfl
  intro hh
  have := (h.holder_iff hv).mp hh
  omega

/-- A statement of `lock_acquire` stays in the call or ends it with the lock taken. -/
theorem exec_acquiring (h : Inv s) (ht : s.At t l .acquiring) (he : s.exec t = some (.ok s')) :
    s'.At t l .acquiring ∨ s'.At t l .holding := by
  obtain ⟨hin, hd⟩ := ht
  rcases hin with hpc | hpc | hpc | hpc | hpc | hpc
  · simp only [LockSys.exec, hpc, if_pos (h.not_holder hpc hd)] at he
    cases he
    exact .inl ⟨.inr (.inl (Function.update_self ..)), hd⟩
  · simp only [LockSys.exec, hpc] at he
    split at he
    · cases he
    · rename_i sema blocks _
      cases he
      cases blocks with
      | true => exact .inl ⟨.inr (.inr (.inl (Function.update_self ..))), hd⟩
      | false => exact .inl ⟨.inr (.inr (.inr (.inl (Function.update_self ..)))), hd⟩
  · simp [LockSys.exec, hpc] at he
  · simp only [LockSys.exec, hpc] at he
    cases he
    exact .inl ⟨.inr (.inr (.inr (.inr (.inl (Function.update_self ..))))), hd⟩
  · simp only [LockSys.exec, hpc] at he
    split at he
    · cases he
      exact .inl ⟨.inr (.inr (.inr (.inr (.inr (Function.update_self ..))))), hd⟩
    · cases he
  · simp only [LockSys.exec, hpc] at he
    cases he
    refine .inr ⟨Function.update_self .., ?_⟩
    simp [LockSys.goto, setDepth, hd]

/-- A statement of `lock_release` stays in the call or ends it with the lock given back. -/
theorem exec_releasing (h : Inv s) (ht : s.At t l .releasing) (he : s.exec t = some (.ok s')) :
    s'.At t l .releasing ∨ s'.At t l .outside := by
  obtain ⟨hin, hd⟩ := ht
  rcases hin with hpc | hpc | hpc | hpc | hpc
  · -- the counter is one, as the depth is
    have hv : s.viewOf l t = some (some t, 1) := by
      rw [viewOf, hpc, hd]
      rfl
    obtain ⟨-, -, hcnt, -⟩ := (h.locks l).of_view hv
    have hle : ¬ (s.lock l).holderRepeatCnt > 1 := by
      intro hgt
      have : (1 : UInt32).toNat < (s.lock l).holderRepeatCnt.toNat := UInt32.lt_iff_toNat_lt.mp hgt
      rw [hcnt] at this
      exact absurd this (by decide)
    simp only [LockSys.exec, hpc, if_neg hle] at he
    cases he
    exact .inl ⟨.inr (.inl (Function.update_self ..)), hd⟩
  · simp only [LockSys.exec, hpc] at he
    split at he
    · cases he
      exact .inl ⟨.inr (.inr (.inl (Function.update_self ..))), hd⟩
    · cases he
  · simp only [LockSys.exec, hpc] at he
    cases he
    exact .inl ⟨.inr (.inr (.inr (.inl (Function.update_self ..)))), hd⟩
  · simp only [LockSys.exec, hpc] at he
    cases he
    exact .inl ⟨.inr (.inr (.inr (.inr (Function.update_self ..)))), hd⟩
  · simp only [LockSys.exec, hpc] at he
    cases he
    refine .inr (At.woken (s := ((s.setLock l { s.lock l with
        semaphore := (semaphoreUp (s.lock l).semaphore).1 }).setDepth t l
        (s.depth t l - 1)).goto t .idle) ⟨Function.update_self .., ?_⟩ ?_ (wake_pc _ _ _))
    · simp [LockSys.goto, setDepth, hd]
    · exact congrFun (wake_depth ..) t

end LockSys

end GwOS
