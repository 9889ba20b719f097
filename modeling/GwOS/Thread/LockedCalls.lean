import GwOS.Thread.LockCalls
import GwOS.Thread.Semaphore
import GwOS.Lib.Sections

/-!
# Calls under a lock (`thread/sync.c`)

A function that begins with `lock_acquire`, ends with `lock_release` and works on the object in between
runs on several threads. Its statements and those of the two lock functions come in any order, and an
interrupt handler that does not take the lock may act on the object at any time.

- `LockedCalls`: the locks, and what each thread is in.
- `LockedCalls.Step.section_step`: the threads that are between the two calls are those of `Sections`.
- `LockedCalls.Reaches.inOrder`: the actions of the calls come call by call.
- `LockedCalls.Reaches.goes_on`: the calls do not end in a deadlock.
-/

namespace GwOS

open LockSys

/-! ## A free lock is attended to -/

namespace LockSys

variable {T L : Type*} [DecidableEq T] [DecidableEq L] {s s' : LockSys T L} {t u : T} {l : L}

/-- When the semaphore can be taken and threads wait for it, one thread is awake and about to test it. -/
def Attended (s : LockSys T L) (l : L) : Prop :=
  (s.lock l).semaphore.value = 1 → (s.lock l).semaphore.waiters ≠ [] → ∃ t, s.pc t = .down l

omit [DecidableEq L] in
@[simp] theorem wake_lock (s : LockSys T L) (w : Option T) : (s.wake w).lock = s.lock := by
  rcases w with _ | v
  · rfl
  · rw [wake]
    split <;> rfl

omit [DecidableEq T] in
theorem setLock_semaphore {l' : L} {k : Lock T} (hk : l = l' → k.semaphore = (s.lock l).semaphore) :
    ((s.setLock l' k).lock l).semaphore = (s.lock l).semaphore := by
  show (Function.update s.lock l' k l).semaphore = _
  by_cases hl : l = l'
  · rw [← hk hl, hl, Function.update_self]
  · rw [Function.update_of_ne hl]

/-- Only the two operations touch the semaphore. -/
theorem exec_semaphore (he : s.exec t = some (.ok s')) (hdown : s.pc t ≠ .down l) (hup : s.pc t ≠ .up l) :
    (s'.lock l).semaphore = (s.lock l).semaphore := by
  cases hpc : s.pc t with
  | idle | blocked l' => simp [LockSys.exec, hpc] at he
  | testHolder l' | testCnt l' =>
    simp only [LockSys.exec, hpc] at he
    split at he <;> cases he <;> rfl
  | assertZero l' | assertOne l' =>
    simp only [LockSys.exec, hpc] at he
    split at he
    · cases he
      rfl
    · cases he
  | down l' =>
    simp only [LockSys.exec, hpc] at he
    split at he
    · cases he
    · cases he
      exact setLock_semaphore fun hl => absurd (hl ▸ hpc) hdown
  | setHolder l' | clearHolder l' | clearCnt l' | setCnt l' | incCnt l' | decCnt l' =>
    simp only [LockSys.exec, hpc] at he
    cases he
    exact setLock_semaphore fun hl => hl ▸ rfl
  | up l' =>
    simp only [LockSys.exec, hpc] at he
    cases he
    rw [wake_lock]
    exact setLock_semaphore fun hl => absurd (hl ▸ hpc) hup

/-- A thread that is in one of the functions and not blocked has a statement to make. -/
theorem exec_some (hidle : s.pc t ≠ .idle) (hb : ∀ l, s.pc t ≠ .blocked l) : ∃ r, s.exec t = some r := by
  cases he : s.exec t with
  | some r => exact ⟨r, rfl⟩
  | none =>
    cases hpc : s.pc t with
    | idle => exact absurd hpc hidle
    | blocked l => exact absurd hpc (hb l)
    | testHolder l | testCnt l | assertZero l | assertOne l | down l =>
      simp only [LockSys.exec, hpc] at he
      split at he <;> cases he
    | setHolder l | clearHolder l | clearCnt l | setCnt l | incCnt l | decCnt l | up l =>
      simp [LockSys.exec, hpc] at he

/-- `semaphore_down` leaves the value zero. -/
theorem exec_down_value (hpc : s.pc t = .down l) (he : s.exec t = some (.ok s')) :
    (s'.lock l).semaphore.value = 0 := by
  simp only [LockSys.exec, hpc] at he
  split at he
  · cases he
  · next sema blocks hdown =>
    cases he
    have hsema : sema.value = 0 := by
      rw [semaphoreDown] at hdown
      split at hdown
      · split at hdown
        · cases hdown
        · cases hdown
          assumption
      · simp only at hdown
        split at hdown
        · cases hdown
          assumption
        · cases hdown
    show (Function.update s.lock l _ l).semaphore.value = 0
    rw [Function.update_self]
    exact hsema

/-- `semaphore_up` wakes a thread that waits. -/
theorem exec_up_wakes (h : Inv s) (hpc : s.pc t = .up l) (he : s.exec t = some (.ok s'))
    (hw : (s'.lock l).semaphore.waiters ≠ []) : ∃ u, s'.pc u = .down l := by
  simp only [LockSys.exec, hpc] at he
  cases he
  rw [wake_lock] at hw
  have hself : (Function.update s.lock l { s.lock l with
      semaphore := (semaphoreUp (s.lock l).semaphore).1 } l).semaphore.waiters ≠ [] := hw
  rw [Function.update_self] at hself
  rcases Semaphore.up_cases (s.lock l).semaphore with ⟨hnil, hup⟩ | ⟨u, ws, hcons, hup⟩
  · rw [hup] at hself
    exact absurd hnil hself
  · refine ⟨u, ?_⟩
    have hb : s.pc u = .blocked l := ((h.waiters l).1 u).mp (by rw [hcons]; exact List.mem_cons_self)
    have hu : u ≠ t := by
      rintro rfl
      rw [hpc] at hb
      cases hb
    rw [hup]
    have hpcu := goto_pc_ne ((s.setLock l { s.lock l with
      semaphore := ⟨(s.lock l).semaphore.value + 1, ws⟩ }).setDepth t l (s.depth t l - 1)) hu .idle
    have hb' : (((s.setLock l { s.lock l with semaphore := ⟨(s.lock l).semaphore.value + 1, ws⟩ }).setDepth
        t l (s.depth t l - 1)).goto t .idle).pc u = .blocked l := hpcu.trans hb
    simp only [wake, hb']
    exact Function.update_self ..

/-- **One statement** of a thread leaves the lock attended to. -/
theorem Attended.exec (h : Inv s) (ha : s.Attended l) (he : s.exec t = some (.ok s')) : s'.Attended l := by
  intro hval hwait
  by_cases hdown : s.pc t = .down l
  · rw [exec_down_value hdown he] at hval
    exact absurd hval (by decide)
  · by_cases hup : s.pc t = .up l
    · exact exec_up_wakes h hup he hwait
    · have hsema := exec_semaphore he hdown hup
      rw [hsema] at hval hwait
      obtain ⟨u, hu⟩ := ha hval hwait
      have hne : u ≠ t := by
        rintro rfl
        exact hdown hu
      obtain ⟨-, hsame | ⟨l', hb, -⟩⟩ := exec_cases_other he hne
      · exact ⟨u, hsame.trans hu⟩
      · rw [hu] at hb
        cases hb

end LockSys

/-! ## The calls -/

/-- What a thread is in. -/
inductive CallPc (C σ : Type*) where
  | outside
  /-- In `lock_acquire`, or at its end. -/
  | entering (c : C)
  /-- Between the two calls, with the actions that are left. -/
  | body (c : C) (rest : List (σ → σ))
  /-- In `lock_release`, or at its end. -/
  | leaving (c : C)

/-- The call that the thread is inside of, with the actions that are left. -/
def CallPc.inside {C σ : Type*} : CallPc C σ → Option (C × List (σ → σ))
  | .body c rest => some (c, rest)
  | _ => none

/-- The call whose `lock_acquire` has not returned yet. -/
def CallPc.pending {C σ : Type*} : CallPc C σ → List C
  | .entering c => [c]
  | _ => []

/-- The threads, the locks, and the object that the lock is for. -/
structure LockedCalls (T L C σ : Type*) where
  locks : LockSys T L
  pc : T → CallPc C σ
  data : σ
  /-- What has been done to it; the actions of the calls are marked. -/
  hist : List (Bool × (σ → σ))
  /-- The calls in the order in which their `lock_acquire` has returned. -/
  log : List (T × C)
  /-- The calls that each thread has made. -/
  made : T → List C

namespace LockedCalls

variable {T L C σ : Type*} [DecidableEq T] [DecidableEq L]

def goto (s : LockedCalls T L C σ) (t : T) (pc : CallPc C σ) : LockedCalls T L C σ :=
  { s with pc := Function.update s.pc t pc }

variable (l : L) (actions : T → C → List (σ → σ)) (noise : (σ → σ) → Prop)

/-- A thread calls the function, or goes on in it; or a handler acts on the object. -/
inductive Step (s : LockedCalls T L C σ) : LockedCalls T L C σ → Prop
  | call (t : T) (c : C) (hpc : s.pc t = .outside) :
      Step s { s.goto t (.entering c) with
        locks := s.locks.goto t (.testHolder l), made := Function.update s.made t (s.made t ++ [c]) }
  | lock (t : T) (locks : LockSys T L) (he : s.locks.exec t = some (.ok locks)) : Step s { s with locks }
  | enter (t : T) (c : C) (hpc : s.pc t = .entering c) (hidle : s.locks.pc t = .idle) :
      Step s { s.goto t (.body c (actions t c)) with log := s.log ++ [(t, c)] }
  | act (t : T) (c : C) (f : σ → σ) (fs : List (σ → σ)) (hpc : s.pc t = .body c (f :: fs)) :
      Step s { s.goto t (.body c fs) with data := f s.data, hist := s.hist ++ [(true, f)] }
  | release (t : T) (c : C) (hpc : s.pc t = .body c []) :
      Step s { s.goto t (.leaving c) with locks := s.locks.goto t (.testCnt l) }
  | done (t : T) (c : C) (hpc : s.pc t = .leaving c) (hidle : s.locks.pc t = .idle) :
      Step s (s.goto t .outside)
  | noise (f : σ → σ) (hf : noise f) : Step s { s with data := f s.data, hist := s.hist ++ [(false, f)] }

/-- Every lock as `lock_init` leaves it, and no call made. -/
def start (d : σ) : LockedCalls T L C σ := ⟨LockSys.init, fun _ => .outside, d, [], [], fun _ => []⟩

def Reaches (d : σ) (s : LockedCalls T L C σ) : Prop :=
  Relation.ReflTransGen (Step l actions noise) (start d) s

variable {l actions} {noise} {s s' : LockedCalls T L C σ} {t u : T} {c : C} {d : σ}

/-! ## Where the threads are in the lock functions -/

/-- What a thread is in, and its stage. -/
def Fits (locks : LockSys T L) (t : T) (l : L) : CallPc C σ → Prop
  | .outside => locks.At t l .outside
  | .entering _ => locks.At t l .acquiring ∨ locks.At t l .holding
  | .body _ _ => locks.At t l .holding
  | .leaving _ => locks.At t l .releasing ∨ locks.At t l .outside

/-- The locks are in order, and each thread is in the lock functions where its call says. -/
structure Ok (l : L) (s : LockedCalls T L C σ) : Prop where
  inv : LockSys.Inv s.locks
  fits : ∀ t, Fits s.locks t l (s.pc t)

omit [DecidableEq T] [DecidableEq L] in
/-- A step of another thread. -/
theorem Fits.other {locks locks' : LockSys T L} {pc : CallPc C σ} (h : Fits locks t l pc)
    (hstage : ∀ g, locks.At t l g → locks'.At t l g) : Fits locks' t l pc := by
  cases pc with
  | outside => exact hstage .outside h
  | entering c => exact Or.imp (hstage .acquiring) (hstage .holding) h
  | body c rest => exact hstage .holding h
  | leaving c => exact Or.imp (hstage .releasing) (hstage .outside) h

omit [DecidableEq T] [DecidableEq L] in
/-- `lock_acquire` has returned. -/
theorem Fits.holding {locks : LockSys T L} (h : Fits locks t l (.entering c : CallPc C σ))
    (hidle : locks.pc t = .idle) : locks.At t l .holding := by
  refine Or.resolve_left h fun hat => ?_
  have hin := hat.1
  simp [hidle, InAcquire] at hin

omit [DecidableEq T] [DecidableEq L] in
/-- `lock_release` has returned. -/
theorem Fits.outside {locks : LockSys T L} (h : Fits locks t l (.leaving c : CallPc C σ))
    (hidle : locks.pc t = .idle) : locks.At t l .outside := by
  refine Or.resolve_left h fun hat => ?_
  have hin := hat.1
  simp [hidle, InRelease] at hin

/-- The thread moves on, and the others stay where they are. -/
theorem Ok.of_move {pc : CallPc C σ} (hinv : LockSys.Inv s'.locks) (hpc : s'.pc = Function.update s.pc t pc)
    (hself : Fits s'.locks t l pc) (hother : ∀ u, u ≠ t → Fits s'.locks u l (s.pc u)) : Ok l s' := by
  refine ⟨hinv, fun u => ?_⟩
  rw [hpc]
  by_cases hu : u = t
  · subst hu
    rw [Function.update_self]
    exact hself
  · rw [Function.update_of_ne hu]
    exact hother u hu

theorem Ok.step (h : Ok l s) (hstep : Step l actions noise s s') : Ok l s' := by
  have hbound : ∀ t, s.locks.At t l .outside → s.locks.depth t l + 1 < 2 ^ 32 := by
    intro t ht
    rw [ht.2]
    decide
  cases hstep with
  | call t c hpc =>
    have hat := h.fits t
    rw [hpc] at hat
    refine .of_move (LockSys.Step.inv (.acquire t l hat.1 (hbound t hat)) h.inv) rfl (.inl hat.acquire)
      fun u hu => (h.fits u).other fun g hg => hg.goto_other hu _
  | lock t locks he =>
    obtain ⟨locks', hok, hinv⟩ := exec_inv h.inv he
    cases hok
    refine ⟨hinv, fun u => ?_⟩
    by_cases hu : u = t
    · subst hu
      -- only a thread in one of the two functions has a statement to make
      have hne : s.locks.pc u ≠ .idle := by
        intro hidle
        rw [LockSys.exec, hidle] at he
        cases he
      have hat := h.fits u
      show Fits locks u l (s.pc u)
      cases hpc : s.pc u with
      | outside =>
        rw [hpc] at hat
        exact absurd hat.1 hne
      | entering c =>
        rw [hpc] at hat
        rcases hat with hat | hat
        · exact exec_acquiring h.inv hat he
        · exact absurd hat.1 hne
      | body c rest =>
        rw [hpc] at hat
        exact absurd hat.1 hne
      | leaving c =>
        rw [hpc] at hat
        rcases hat with hat | hat
        · exact exec_releasing h.inv hat he
        · exact absurd hat.1 hne
    · exact (h.fits u).other fun g hg => exec_other he hu hg
  | enter t c hpc hidle =>
    have hat := h.fits t
    rw [hpc] at hat
    exact .of_move h.inv rfl (hat.holding hidle) fun u _ => h.fits u
  | act t c f fs hpc =>
    have hat := h.fits t
    rw [hpc] at hat
    exact .of_move h.inv rfl hat fun u _ => h.fits u
  | release t c hpc =>
    have hat := h.fits t
    rw [hpc] at hat
    refine .of_move (LockSys.Step.inv (.release t l hat.1 (Nat.le_of_eq hat.2.symm)) h.inv) rfl (.inl hat.release)
      fun u hu => (h.fits u).other fun g hg => hg.goto_other hu _
  | done t c hpc hidle =>
    have hat := h.fits t
    rw [hpc] at hat
    exact .of_move h.inv rfl (hat.outside hidle) fun u _ => h.fits u
  | noise f hf => exact ⟨h.inv, h.fits⟩

/-! ## The threads inside -/

/-- The threads between the two calls. -/
def sections (s : LockedCalls T L C σ) : Sections T C σ := 
  ⟨s.data, s.hist, fun t => (s.pc t).inside, s.log⟩

omit [DecidableEq T] [DecidableEq L] in
theorem inside_of_pc {pc : CallPc C σ} (hpc : s.pc t = pc) : s.sections.inside t = pc.inside :=
  congrArg CallPc.inside hpc

omit [DecidableEq L] in
theorem inside_goto (s : LockedCalls T L C σ) (t : T) (pc : CallPc C σ) :
    (s.goto t pc).sections.inside = Function.update s.sections.inside t pc.inside :=
  funext fun u => Function.apply_update (fun _ => CallPc.inside) s.pc t pc u

omit [DecidableEq L] in
/-- A move outside of the body. -/
theorem inside_goto_same {pc : CallPc C σ} (h : (s.pc t).inside = pc.inside) :
    (s.goto t pc).sections.inside = s.sections.inside := by
  rw [inside_goto, ← h]
  exact Function.update_eq_self ..

/-- A thread that has the lock keeps the others out. -/
theorem Ok.alone (h : Ok l s) (ht : s.locks.At t l .holding) (hu : u ≠ t) : (s.pc u).inside = none := by
  have hat := h.fits u
  cases hpc : s.pc u with
  | body c rest =>
    rw [hpc] at hat
    exact absurd (h.inv.depth_unique (Nat.le_of_eq hat.2.symm) (Nat.le_of_eq ht.2.symm)) hu
  | _ => rfl

/-- **Between the two calls** the threads move as those of `Sections`. -/
theorem Step.section_step (h : Ok l s) (hstep : Step l actions noise s s') :
    s'.sections = s.sections ∨ Sections.Step actions noise s.sections s'.sections := by
  cases hstep with
  | call t c hpc =>
    have hout : (s.pc t).inside = none := inside_of_pc hpc
    have hinside : (s.goto t (.entering c)).sections.inside = s.sections.inside := inside_goto_same hout
    exact .inl (congrArg (fun inside => Sections.mk s.data s.hist inside s.log) hinside)
  | lock t locks he => exact .inl rfl
  | enter t c hpc hidle =>
    have hat := h.fits t
    rw [hpc] at hat
    have hhold := hat.holding hidle
    have hfree : ∀ u, s.sections.inside u = none := by
      intro u
      by_cases hu : u = t
      · exact inside_of_pc (hu ▸ hpc)
      · exact h.alone hhold hu
    have hinside := inside_goto s t (.body c (actions t c))
    have hstep : Sections.Step actions noise s.sections _ := .enter t c hfree
    rw [CallPc.inside] at hinside
    rw [← hinside] at hstep
    exact .inr hstep
  | act t c f fs hpc =>
    have hin : s.sections.inside t = some (c, f :: fs) := inside_of_pc hpc
    have hinside := inside_goto s t (.body c fs)
    have hstep : Sections.Step actions noise s.sections _ := .act t c f fs hin
    rw [CallPc.inside] at hinside
    rw [← hinside] at hstep
    exact .inr hstep
  | release t c hpc =>
    have hin : s.sections.inside t = some (c, []) := inside_of_pc hpc
    have hinside := inside_goto s t (.leaving c)
    have hstep : Sections.Step actions noise s.sections _ := .leave t c hin
    have hnone : (CallPc.leaving c : CallPc C σ).inside = none := rfl
    rw [← hnone, ← hinside] at hstep
    exact .inr hstep
  | done t c hpc hidle =>
    have hout : (s.pc t).inside = none := inside_of_pc hpc
    have hinside : (s.goto t .outside).sections.inside = s.sections.inside := inside_goto_same hout
    exact .inl (congrArg (fun inside => Sections.mk s.data s.hist inside s.log) hinside)
  | noise f hf => exact .inr (.noise f hf)

/-! ## Runs -/

theorem Reaches.ok (h : Reaches l actions noise d s) : Ok l s := by
  induction h with
  | refl => exact ⟨inv_init, fun t => at_init t l⟩
  | tail _ hstep ih => exact ih.step hstep

/-- The runs are runs of `Sections`. -/
theorem Reaches.sections (h : Reaches l actions noise d s) : Sections.Reaches actions noise d s.sections := by
  induction h with
  | refl => exact .refl
  | tail hrun hstep ih =>
    rcases hstep.section_step (Reaches.ok hrun) with hsame | hnext
    · rw [hsame]
      exact ih
    · exact ih.tail hnext

theorem Reaches.inOrder (h : Reaches l actions noise d s) : Sections.InOrder actions noise d s.sections :=
  h.sections.inOrder

/-- The calls of one thread. -/
def callsOf (t : T) (log : List (T × C)) : List C := (log.filter fun e => e.1 = t).map Prod.snd

omit [DecidableEq L] in
theorem callsOf_concat (t u : T) (c : C) (log : List (T × C)) :
    callsOf u (log ++ [(t, c)]) = callsOf u log ++ if t = u then [c] else [] := by
  by_cases hu : t = u
  · simp [callsOf, hu]
  · simp [callsOf, hu]

omit [DecidableEq L] in
theorem pending_goto {pc : CallPc C σ} (h : (s.pc t).pending = pc.pending) (u : T) :
    ((s.goto t pc).pc u).pending = (s.pc u).pending := by
  show (Function.update s.pc t pc u).pending = _
  by_cases hu : u = t
  · rw [hu, Function.update_self, h]
  · rw [Function.update_of_ne hu]

/-- A call is pending from the moment it is made until it is in the log. -/
theorem Step.made (hstep : Step l actions noise s s') (h : ∀ t, s.made t = callsOf t s.log ++ (s.pc t).pending)
    (u : T) : s'.made u = callsOf u s'.log ++ (s'.pc u).pending := by
  have hquiet : ∀ {t : T} {pc pc' : CallPc C σ}, s.pc t = pc → pc.pending = pc'.pending →
      s.made u = callsOf u s.log ++ ((s.goto t pc').pc u).pending := by
    intro t pc pc' hpc hpending
    rw [pending_goto (by rw [hpc, hpending])]
    exact h u
  cases hstep with
  | call t c hpc =>
    have hmade := h u
    show Function.update s.made t (s.made t ++ [c]) u = callsOf u s.log ++
      (Function.update s.pc t (.entering c) u).pending
    by_cases hu : u = t
    · subst hu
      rw [hpc] at hmade
      rw [Function.update_self, Function.update_self, hmade, List.append_assoc]
      rfl
    · rw [Function.update_of_ne hu, Function.update_of_ne hu]
      exact hmade
  | lock t locks he => exact h u
  | enter t c hpc hidle =>
    have hmade := h u
    show s.made u = callsOf u (s.log ++ [(t, c)]) ++
      (Function.update s.pc t (.body c (actions t c)) u).pending
    rw [callsOf_concat, hmade]
    by_cases hu : u = t
    · subst hu
      rw [hpc, if_pos rfl, Function.update_self]
      simp [CallPc.pending]
    · rw [if_neg fun he => hu he.symm, Function.update_of_ne hu, List.append_nil]
  | act t c f fs hpc => exact hquiet hpc rfl
  | release t c hpc => exact hquiet hpc rfl
  | done t c hpc hidle => exact hquiet hpc rfl
  | noise f hf => exact h u

/-- **The calls of a thread** are in the log in the order in which it has made them, each once; only the
last one may be missing, when its `lock_acquire` has not returned. -/
theorem Reaches.made (h : Reaches l actions noise d s) (t : T) :
    s.made t = callsOf t s.log ++ (s.pc t).pending := by
  induction h generalizing t with
  | refl => rfl
  | tail _ hstep ih => exact hstep.made ih t

/-! ## Somebody can always go on -/

theorem Step.attended (h : Ok l s) (ha : s.locks.Attended l) (hstep : Step l actions noise s s') :
    s'.locks.Attended l := by
  have hgoto : ∀ {t : T} {pc : LockPc L}, s.locks.pc t = .idle → (s.locks.goto t pc).Attended l := by
    intro t pc hidle hval hwait
    obtain ⟨u, hu⟩ := ha hval hwait
    have hne : u ≠ t := by
      rintro rfl
      rw [hidle] at hu
      cases hu
    exact ⟨u, (goto_pc_ne s.locks hne pc).trans hu⟩
  cases hstep with
  | call t c hpc =>
    have hat := h.fits t
    rw [hpc] at hat
    exact hgoto hat.1
  | lock t locks he => exact ha.exec h.inv he
  | release t c hpc =>
    have hat := h.fits t
    rw [hpc] at hat
    exact hgoto hat.1
  | _ => exact ha

theorem Reaches.attended (h : Reaches l actions noise d s) : s.locks.Attended l := by
  induction h with
  | refl => exact fun _ hwait => absurd rfl hwait
  | tail hrun hstep ih => exact hstep.attended (Reaches.ok hrun) ih

omit [DecidableEq T] [DecidableEq L] in
/-- A thread blocks in `lock_acquire` of this lock only. -/
theorem Fits.blocked {locks : LockSys T L} {pc : CallPc C σ} {l' : L} (h : Fits locks t l pc)
    (hb : locks.pc t = .blocked l') : l' = l := by
  have hacquire : locks.At t l .acquiring → l' = l := by
    intro hat
    have hin := hat.1
    simpa [InAcquire, hb] using hin
  have hidle : locks.pc t = .idle → l' = l := by
    intro hidle
    rw [hb] at hidle
    cases hidle
  have hrelease : locks.At t l .releasing → l' = l := by
    intro hat
    have hin := hat.1
    simp [InRelease, hb] at hin
  cases pc with
  | outside => exact hidle h.1
  | entering c => exact Or.elim h hacquire fun hat => hidle hat.1
  | body c rest => exact hidle h.1
  | leaving c => exact Or.elim h hrelease fun hat => hidle hat.1

/-- A thread in a call can go on, unless it is blocked. -/
theorem Ok.goes_on (h : Ok l s) (hpc : s.pc t ≠ .outside) (hb : s.locks.pc t ≠ .blocked l) :
    ∃ s', Step l actions (fun _ => False) s s' ∧ s'.made = s.made := by
  have hexec : s.locks.pc t ≠ .idle → ∃ s', Step l actions (fun _ => False) s s' ∧ s'.made = s.made := by
    intro hidle
    obtain ⟨r, hr⟩ := exec_some hidle fun l' hb' => hb ((h.fits t).blocked hb' ▸ hb')
    obtain ⟨locks, rfl, -⟩ := exec_inv h.inv hr
    exact ⟨_, .lock t locks hr, rfl⟩
  cases hcall : s.pc t with
  | outside => exact absurd hcall hpc
  | entering c =>
    by_cases hidle : s.locks.pc t = .idle
    · exact ⟨_, .enter t c hcall hidle, rfl⟩
    · exact hexec hidle
  | body c rest =>
    cases rest with
    | nil => exact ⟨_, .release t c hcall, rfl⟩
    | cons f fs => exact ⟨_, .act t c f fs hcall, rfl⟩
  | leaving c =>
    by_cases hidle : s.locks.pc t = .idle
    · exact ⟨_, .done t c hcall hidle, rfl⟩
    · exact hexec hidle

omit [DecidableEq T] in
/-- A thread that takes part in the protocol of the lock is in a call. -/
theorem Ok.not_outside (h : Ok l s) (ht : s.locks.pc t ≠ .idle ∨ s.locks.viewOf l t ≠ none) :
    s.pc t ≠ .outside := by
  intro hout
  have hat := h.fits t
  rw [hout] at hat
  rcases ht with hidle | hview
  · exact hidle hat.1
  · refine hview ?_
    rw [viewOf, hat.1, hat.2]
    rfl

/-- **No deadlock.** Whenever a thread has not finished its call, some thread can go on with its own,
without a new call and without the handlers. -/
theorem Reaches.goes_on (h : Reaches l actions noise d s) (hpc : s.pc t ≠ .outside) :
    ∃ s', Step l actions (fun _ => False) s s' ∧ s'.made = s.made := by
  have hok := h.ok
  by_cases hb : s.locks.pc t = .blocked l
  · have hwait : (s.locks.lock l).semaphore.waiters ≠ [] :=
      List.ne_nil_of_mem (((hok.inv.waiters l).1 t).mpr hb)
    rcases hok.inv.locks l with ⟨-, -, -, hval⟩ | ⟨u, x, n, hview, -⟩
    · -- the lock is free, and a thread has been woken for it
      obtain ⟨u, hu⟩ := h.attended hval hwait
      have hidle : s.locks.pc u ≠ .idle := by rw [hu]; nofun
      exact hok.goes_on (hok.not_outside (.inl hidle)) (by rw [hu]; nofun)
    · -- the owner of the lock is not blocked on it
      have hsome : s.locks.viewOf l u ≠ none := by rw [hview]; nofun
      refine hok.goes_on (hok.not_outside (.inr hsome)) fun hbu => hsome ?_
      have hlocal := hok.inv.locals u
      rw [hbu] at hlocal
      have hdepth : s.locks.depth u l = 0 := hlocal
      rw [viewOf, hbu, hdepth]
      rfl
  · exact hok.goes_on hpc hb

end LockedCalls

end GwOS
