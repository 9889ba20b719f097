import GwOS.Device.Console
import GwOS.Thread.LockedCalls

/-!
# The console of several threads (`device/console.c`)

Every function of the console takes `console_lock`, draws character by character, and gives the lock
back. A thread may lose the processor between any two characters, as between any two statements of the lock
functions. The handlers of the timer and of the keyboard draw without the lock; here they come between two
characters, as the system calls that draw run with the interrupts off. `console_put_int` and the
`console_debug` functions, which nothing calls, are left out.

- `ConsoleOp.run`: what a function does when nothing comes between.
- `console_serial`: the characters come call by call, in every interleaving.
- `console_shared_onScreen`: texts without a backspace keep the cursor of all threads on the screen.
-/

namespace GwOS

/-! ## The functions -/

namespace Screen

/-- `mov byte ah, [gs:bx]` -/
def load (scr : Screen) (bx : UInt16) : Except Fault UInt8 :=
  if bx.toNat ≤ videoLimit then .ok (scr.video bx.toNat) else .error .outOfBounds

/-- `get_char_pos`: the character in `ah`, its attribute in `al`. -/
def getCharPos (scr : Screen) (pos : UInt16) : Except Fault UInt32 := do
  let bx := pos <<< 1
  let ah ← scr.load bx
  let bx := bx + 1
  let al ← scr.load bx
  .ok (ah.toUInt32 * 256 + al.toUInt32)

/-- `put_char_in_pos` -/
def putCharInPos (scr : Screen) (c attr posX posY : UInt8) : Except Fault Screen :=
  scr.putCharPos c attr (posX.toUInt16 * 80 + posY.toUInt16)

/-- The loop of `console_clear`, with `n` characters left. -/
def putBlanks : Nat → Screen → Except Fault Screen
  | 0, scr => .ok scr
  | n + 1, scr => scr.putChar 0 0x07 >>= putBlanks n

/-- `console_clear`, without the lock. -/
def clear (scr : Screen) : Except Fault Screen := do
  let scr := scr.setCursor 0
  let scr ← putBlanks 2000 scr
  .ok (scr.setCursor 0)

end Screen

/-- A call of a function of `console.c`. -/
inductive ConsoleOp where
  | putStr (s : List UInt8) (attr : UInt8)
  | putChar (c attr : UInt8)
  | getCharPos (pos : UInt16)
  | putCharInPos (c attr posX posY : UInt8)
  | putStrInPos (s : List UInt8) (attr posX posY : UInt8)
  | clear

/-- What `intr_timer_handler` draws, by `FHL_count`. -/
def fhlChar (fhlCount : Nat) : UInt8 := if fhlCount = 0 then 0x7c else if fhlCount = 1 then 0x2f else 0x5c

/-- What the interrupt handlers draw. -/
inductive HandlerDraw where
  | tick (fhlCount : Nat)
  /-- The echo of a key. -/
  | key (c : UInt8)
  | unknownKey

def HandlerDraw.draw (scr : Screen) : HandlerDraw → Except Fault Screen
  | .tick fhlCount => scr.putCharInPos (fhlChar fhlCount) 0x0b 24 79
  | .key c => scr.putChar c 0x07
  | .unknownKey => Screen.putStr 0x07
    [0x75, 0x6e, 0x6b, 0x6e, 0x6f, 0x77, 0x6e, 0x20, 0x6b, 0x65, 0x79, 0x0a] scr

/-- The screen, and what `console_get_char_pos` has last returned in each thread. -/
structure ConsoleData (T : Type*) where
  screen : Screen
  answer : T → Option UInt32

namespace ConsoleOp

variable {T : Type*} [DecidableEq T]

/-- A function that draws. -/
def draw (f : Screen → Except Fault Screen) (d : ConsoleData T) : Except Fault (ConsoleData T) :=
  (f d.screen).map fun screen => { d with screen }

/-- The function in one piece. -/
def run (t : T) (d : ConsoleData T) : ConsoleOp → Except Fault (ConsoleData T)
  | putStr s attr => draw (Screen.putStr attr s) d
  | putChar c attr => draw (·.putChar c attr) d
  | getCharPos pos => (d.screen.getCharPos pos).map fun c => { d with
      answer := Function.update d.answer t (some c) }
  | putCharInPos c attr posX posY => draw (·.putCharInPos c attr posX posY) d
  | putStrInPos s attr posX posY => draw (·.consolePutStrInPos s attr posX posY) d
  | clear => draw (·.clear) d

/-- The calls one after the other. -/
def runAll (log : List (T × ConsoleOp)) (d : ConsoleData T) : Except Fault (ConsoleData T) :=
  log.foldlM (fun d e => e.2.run e.1 d) d

/-- The positioned characters of `console_put_str_in_pos`. -/
def posActions (attr : UInt8) : List UInt8 → UInt32 → List (ConsoleData T → Except Fault (ConsoleData T))
  | [], _ => []
  | c :: s, pos => draw (·.putCharPos c attr pos.toUInt16) :: posActions attr s (pos + 1)

/-- What the function does between `console_acquire` and `console_release`, character by character. -/
def body (t : T) : ConsoleOp → List (ConsoleData T → Except Fault (ConsoleData T))
  | putStr s attr => (Screen.cString s).map fun c => draw (·.putChar c attr)
  | putStrInPos s attr posX posY =>
    posActions attr (Screen.cString s) (posX.toUInt32 * 80 + posY.toUInt32)
  | clear => draw (fun scr => .ok (scr.setCursor 0)) ::
      List.replicate 2000 (draw (·.putChar 0 0x07)) ++ [draw fun scr => .ok (scr.setCursor 0)]
  | op => [fun d => op.run t d]

/-- A fault stops all threads. -/
def actions (t : T) (op : ConsoleOp) : List (Except Fault (ConsoleData T) → Except Fault (ConsoleData T)) :=
  (op.body t).map fun f r => r >>= f

/-- What the handlers do, those that may come. -/
def handlers (Comes : HandlerDraw → Prop) (f : Except Fault (ConsoleData T) → Except Fault (ConsoleData T)) :
    Prop := ∃ i, Comes i ∧ f = fun r => r >>= draw fun scr => i.draw scr

/-! ## In one piece -/

/-- Actions up to the first fault. -/
def runActions {α : Type*} (fs : List (α → Except Fault α)) (d : α) : Except Fault α :=
  fs.foldlM (fun d f => f d) d

theorem runActions_cons {α : Type*} (f : α → Except Fault α) (fs : List (α → Except Fault α)) (d : α) :
    runActions (f :: fs) d = f d >>= runActions fs := List.foldlM_cons ..

theorem runActions_append {α : Type*} (fs gs : List (α → Except Fault α)) (d : α) :
    runActions (fs ++ gs) d = runActions fs d >>= runActions gs := List.foldlM_append ..

theorem runActions_one {α : Type*} (f : α → Except Fault α) (d : α) : runActions [f] d = f d :=
  bind_pure (f d)

theorem actAll_bind {α : Type*} (fs : List (α → Except Fault α)) (r : Except Fault α) :
    Sections.actAll (fs.map fun f r => r >>= f) r = r >>= runActions fs := by
  induction fs generalizing r with
  | nil => cases r <;> rfl
  | cons f fs ih =>
    rw [List.map_cons]
    refine (ih (r >>= f)).trans ?_
    cases r <;> rfl

omit [DecidableEq T] in
theorem draw_bind (f g : Screen → Except Fault Screen) (d : ConsoleData T) :
    (draw f d >>= draw g) = draw (fun scr => f scr >>= g) d := by
  rw [draw, draw]
  cases f d.screen <;> rfl

omit [DecidableEq T] in
theorem putStr_body (attr : UInt8) (s : List UInt8) (d : ConsoleData T) :
    runActions ((Screen.cString s).map fun c => draw (·.putChar c attr)) d = draw (Screen.putStr attr s) d := by
  induction s generalizing d with
  | nil => rfl
  | cons c s ih =>
    by_cases hend : c = 0
    · subst hend
      rfl
    · have hstring : Screen.cString (c :: s) = c :: Screen.cString s := by simp [Screen.cString, hend]
      have hput : Screen.putStr attr (c :: s) = fun scr => scr.putChar c attr >>= Screen.putStr attr s := by
        funext scr
        rw [Screen.putStr, if_neg hend]
      rw [hstring, hput, ← draw_bind, List.map_cons, runActions_cons]
      exact congrArg _ (funext ih)

omit [DecidableEq T] in
theorem posActions_run (attr : UInt8) (s : List UInt8) (pos : UInt32) (d : ConsoleData T) :
    runActions (posActions attr s pos) d = draw (Screen.putStrPos attr s pos) d := by
  induction s generalizing pos d with
  | nil => rfl
  | cons c s ih =>
    have hput : Screen.putStrPos attr (c :: s) pos = fun scr =>
        scr.putCharPos c attr pos.toUInt16 >>= Screen.putStrPos attr s (pos + 1) := rfl
    rw [hput, ← draw_bind, posActions, runActions_cons]
    exact congrArg _ (funext (ih (pos + 1)))

omit [DecidableEq T] in
theorem blanks_run (n : Nat) (d : ConsoleData T) :
    runActions (List.replicate n (draw (·.putChar 0 0x07))) d = draw (Screen.putBlanks n) d := by
  induction n generalizing d with
  | zero => rfl
  | succ n ih =>
    have hput : Screen.putBlanks (n + 1) = fun scr => scr.putChar 0 0x07 >>= Screen.putBlanks n := rfl
    rw [hput, ← draw_bind, List.replicate_succ, runActions_cons]
    exact congrArg _ (funext ih)

omit [DecidableEq T] in
/-- `console_clear`, on a screen of any size. -/
theorem clear_body (n : Nat) (d : ConsoleData T) :
    runActions (draw (fun scr => .ok (scr.setCursor 0)) :: List.replicate n (draw (·.putChar 0 0x07)) ++
      [draw fun scr => .ok (scr.setCursor 0)]) d =
      draw (fun scr => Screen.putBlanks n (scr.setCursor 0) >>= fun scr => .ok (scr.setCursor 0)) d := by
  have hrest : ∀ d : ConsoleData T, runActions (List.replicate n (draw (·.putChar 0 0x07)) ++
      [draw fun scr => .ok (scr.setCursor 0)]) d =
      draw (fun scr => Screen.putBlanks n scr >>= fun scr => .ok (scr.setCursor 0)) d := by
    intro d
    rw [runActions_append, blanks_run, ← draw_bind]
    exact congrArg _ (funext fun d => runActions_one _ d)
  exact hrest { d with screen := d.screen.setCursor 0 }

/-- The actions of a function come to what it does in one piece. -/
theorem body_run (t : T) (op : ConsoleOp) (d : ConsoleData T) : runActions (op.body t) d = op.run t d := by
  cases op with
  | putStr s attr => exact putStr_body attr s d
  | putChar c attr => exact runActions_one _ d
  | getCharPos pos => exact runActions_one _ d
  | putCharInPos c attr posX posY => exact runActions_one _ d
  | putStrInPos s attr posX posY => exact posActions_run attr _ _ d
  | clear => exact clear_body 2000 d

theorem actions_run (t : T) (op : ConsoleOp) (r : Except Fault (ConsoleData T)) :
    Sections.actAll (op.actions t) r = r >>= fun d => op.run t d := by
  rw [actions, actAll_bind]
  exact congrArg _ (funext fun d => body_run t op d)

/-- The calls one after the other, each in one piece. -/
theorem whole_run (log : List (T × ConsoleOp)) (r : Except Fault (ConsoleData T)) :
    Sections.actAll (Sections.whole actions log) r = r >>= runAll log := by
  induction log generalizing r with
  | nil => cases r <;> rfl
  | cons e log ih =>
    have hwhole : Sections.whole actions (e :: log) = e.2.actions e.1 ++ Sections.whole actions log :=
      List.flatMap_cons
    have hcons : runAll (e :: log) = fun d => e.2.run e.1 d >>= runAll log := funext fun d =>
      List.foldlM_cons ..
    rw [hwhole, Sections.actAll_append, ih, actions_run, hcons, bind_assoc]

/-- **The console is serial.** In every interleaving of the statements of all threads and of the handlers:
the calls of a thread take effect in the order in which it makes them, each once. When no thread is between
`console_acquire` and `console_release`, the actions of the calls have come one call after the other, and
if no handler has drawn, the screen is what the calls make of it, each in one piece. Otherwise one thread
alone is there, and the first actions of its call have come after the earlier calls. As long as a call is
not finished, some thread can go on with its own. -/
theorem console_serial {d : ConsoleData T} {Comes : HandlerDraw → Prop}
    {s : LockedCalls T Unit ConsoleOp (Except Fault (ConsoleData T))}
    (h : LockedCalls.Reaches () actions (handlers Comes) (.ok d) s) :
    (∀ t, s.made t = LockedCalls.callsOf t s.log ++ (s.pc t).pending) ∧
    s.data = Sections.actAll (s.hist.map Prod.snd) (.ok d) ∧
    ((∀ t, (s.pc t).inside = none) → Sections.own s.hist = s.log.flatMap (fun e => e.2.actions e.1) ∧
      ((∀ e ∈ s.hist, e.1 = true) → s.data = runAll s.log d)) ∧
    (∀ t op rest, s.pc t = .body op rest → (∀ u, u ≠ t → (s.pc u).inside = none) ∧
      ∃ before done, s.log = before ++ [(t, op)] ∧ op.actions t = done ++ rest ∧
        Sections.own s.hist = before.flatMap (fun e => e.2.actions e.1) ++ done) ∧
    ∀ t, s.pc t ≠ .outside →
      ∃ s', LockedCalls.Step () actions (fun _ => False) s s' ∧ s'.made = s.made := by
  obtain ⟨hdata, -, hserial⟩ := h.inOrder
  refine ⟨h.made, hdata, fun hfree => ?_, fun t op rest hpc => ?_, fun t => h.goes_on⟩
  · have hown := hserial.of_free hfree
    refine ⟨hown, fun hquiet => ?_⟩
    calc s.data = Sections.actAll (s.hist.map Prod.snd) (.ok d) := hdata
      _ = Sections.actAll (Sections.own s.hist) (.ok d) := by rw [Sections.own_eq hquiet]
      _ = Sections.actAll (Sections.whole actions s.log) (.ok d) := congrArg (Sections.actAll · _) hown
      _ = runAll s.log d := whole_run s.log (.ok d)
  · exact hserial.of_inside (LockedCalls.inside_of_pc hpc)

/-- One of two threads has the lock and has printed a character of two, the other one waits for it; the
timer has ticked once. -/
theorem reaches_first : ∃ s : LockedCalls Bool Unit ConsoleOp (Except Fault (ConsoleData Bool)),
    LockedCalls.Reaches () actions (handlers fun i => i ≠ .key 0x08) (.ok ⟨blankScreen, fun _ => none⟩) s ∧
      s.made false = [.putStr [0x41, 0x42] 0x07] ∧ s.made true = [.clear] ∧
      s.pc true = .entering .clear ∧ s.locks.pc true = .blocked () := by
  have htick : handlers (T := Bool) (fun i => i ≠ .key 0x08)
      fun r => r >>= draw fun scr => (HandlerDraw.tick 1).draw scr := ⟨.tick 1, by rintro ⟨⟩, rfl⟩
  have h₀ : LockedCalls.Reaches () actions (handlers fun i => i ≠ .key 0x08)
      (.ok ⟨blankScreen, fun _ => none⟩) (_ : LockedCalls Bool Unit ConsoleOp _) := .refl
  have h₁ := h₀.tail (.call false (.putStr [0x41, 0x42] 0x07) rfl)
  have h₂ := (h₁.tail (.lock false _ rfl)).tail (.lock false _ rfl)
  -- the other thread finds the lock taken
  have h₃ := h₂.tail (.call true .clear rfl)
  have h₄ := (h₃.tail (.lock true _ rfl)).tail (.lock true _ rfl)
  have h₅ := (h₄.tail (.lock false _ rfl)).tail (.lock false _ rfl)
  have h₆ := (h₅.tail (.lock false _ rfl)).tail (.enter false _ rfl rfl)
  have h₇ := (h₆.tail (.act false _ _ _ rfl)).tail (.noise _ htick)
  exact ⟨_, h₇, rfl, rfl, rfl, rfl⟩

/-- The thread that waits is not forgotten. -/
theorem console_serial_first : ∃ s : LockedCalls Bool Unit ConsoleOp (Except Fault (ConsoleData Bool)),
    s.locks.pc true = .blocked () ∧
      ∃ s', LockedCalls.Step () actions (fun _ => False) s s' ∧ s'.made = s.made := by
  obtain ⟨s, hreach, -, -, hpc, hblocked⟩ := reaches_first
  have hbusy : s.pc true ≠ .outside := by
    rw [hpc]
    rintro ⟨⟩
  exact ⟨s, hblocked, (console_serial hreach).2.2.2.2 true hbusy⟩

/-! ## On the screen -/

/-- The call stays on the screen, wherever the cursor is. -/
def Safe : ConsoleOp → Prop
  | putStr s _ => 0x08 ∉ Screen.cString s
  | putChar c _ => c ≠ 0x08
  | getCharPos pos => pos.toNat < 16384
  | putCharInPos _ _ posX posY => posX.toNat * 80 + posY.toNat < 2000
  | putStrInPos s _ posX posY =>
    Screen.cString s = [] ∨ posX.toNat * 80 + posY.toNat + (Screen.cString s).length ≤ 2000
  | clear => True

/-- The action returns with the screen in order. -/
def Keeps (f : ConsoleData T → Except Fault (ConsoleData T)) : Prop :=
  ∀ d, d.screen.OnScreen → ∃ d', f d = .ok d' ∧ d'.screen.OnScreen

omit [DecidableEq T] in
theorem keeps_draw {f : Screen → Except Fault Screen}
    (hf : ∀ scr : Screen, scr.OnScreen → ∃ scr', f scr = .ok scr' ∧ scr'.OnScreen) :
    Keeps (draw f : ConsoleData T → _) := by
  intro d hd
  obtain ⟨scr', hok, hscr'⟩ := hf d.screen hd
  exact ⟨{ d with screen := scr' }, by rw [draw, hok]; rfl, hscr'⟩

/-- A character in a cell of the screen. -/
theorem putCharPos_ok {scr : Screen} (h : scr.OnScreen) (c attr : UInt8) {pos : UInt16}
    (hpos : pos.toNat < 2000) : ∃ scr', scr.putCharPos c attr pos = .ok scr' ∧ scr'.OnScreen := by
  obtain ⟨scr', hok, hcur, hst⟩ := Screen.store_cell scr pos (by omega) c attr
  refine ⟨scr', hok, h.of_stores (by rw [hcur]; exact h.cursor) fun off hoff => ?_⟩
  rw [hst] at hoff
  rcases List.mem_cons.mp hoff with rfl | hoff
  · exact .inr (by omega)
  · rcases List.mem_cons.mp hoff with rfl | hoff
    · exact .inr (by omega)
    · exact .inl hoff

theorem putChar_keeps {c : UInt8} (attr : UInt8) (hc : c ≠ 0x08) {scr : Screen} (h : scr.OnScreen) :
    ∃ scr', scr.putChar c attr = .ok scr' ∧ scr'.OnScreen := by
  obtain ⟨scr', hok, hscr', -⟩ := Screen.putChar_ok attr h fun hb => hc hb.1
  exact ⟨scr', hok, hscr'⟩

theorem putStr_keeps (attr : UInt8) {s : List UInt8} (hs : 0x08 ∉ s) {scr : Screen} (h : scr.OnScreen) :
    ∃ scr', Screen.putStr attr s scr = .ok scr' ∧ scr'.OnScreen := by
  induction s generalizing scr with
  | nil => exact ⟨scr, rfl, h⟩
  | cons c s ih =>
    rw [Screen.putStr]
    split
    · exact ⟨scr, rfl, h⟩
    · have hne : c ≠ 0x08 := fun he => hs (he ▸ List.mem_cons_self)
      obtain ⟨scr₁, hok, h₁⟩ := putChar_keeps attr hne h
      rw [hok]
      exact ih (fun hm => hs (List.mem_cons_of_mem c hm)) h₁

theorem setCursor_keeps {scr : Screen} (h : scr.OnScreen) : (scr.setCursor 0).OnScreen := by
  refine h.of_stores ?_ fun off hoff => .inl hoff
  rw [Screen.cursor_setCursor]
  decide

theorem load_ok {scr : Screen} {bx : UInt16} (h : bx.toNat ≤ videoLimit) :
    scr.load bx = .ok (scr.video bx.toNat) := if_pos h

theorem getCharPos_ok (scr : Screen) {pos : UInt16} (hpos : pos.toNat < 16384) :
    ∃ c, scr.getCharPos pos = .ok c := by
  have hshl : (pos <<< 1).toNat = 2 * pos.toNat := by
    rw [Screen.toNat_shl]
    omega
  have hinc : (pos <<< 1 + 1).toNat = 2 * pos.toNat + 1 := by
    rw [UInt16.toNat_add, hshl]
    show (2 * pos.toNat + 1) % 65536 = _
    omega
  have hlow : (pos <<< 1).toNat ≤ videoLimit := by rw [hshl]; unfold videoLimit; omega
  have hhigh : (pos <<< 1 + 1).toNat ≤ videoLimit := by rw [hinc]; unfold videoLimit; omega
  exact ⟨_, bind_eq_ok.mpr ⟨_, load_ok hlow, bind_eq_ok.mpr ⟨_, load_ok hhigh, rfl⟩⟩⟩

omit [DecidableEq T] in
theorem posActions_keeps (attr : UInt8) {s : List UInt8} {pos : UInt32}
    (hend : s = [] ∨ pos.toNat + s.length ≤ 2000) {f : ConsoleData T → Except Fault (ConsoleData T)}
    (hf : f ∈ posActions attr s pos) : Keeps f := by
  induction s generalizing pos with
  | nil => exact absurd hf List.not_mem_nil
  | cons c s ih =>
    have hlen : pos.toNat + (s.length + 1) ≤ 2000 := hend.resolve_left (List.cons_ne_nil _ _)
    have hnext := Screen.succ_toNat pos (by omega)
    rcases List.mem_cons.mp hf with rfl | hf
    · have h16 := Screen.toUInt16_toNat pos (by omega)
      exact keeps_draw fun scr h => putCharPos_ok h c attr (by omega)
    · exact ih (.inr (by omega)) hf

/-- A safe call consists of actions that keep the screen in order. -/
theorem Safe.body_keeps {op : ConsoleOp} (h : op.Safe) (t : T)
    {f : ConsoleData T → Except Fault (ConsoleData T)} (hf : f ∈ op.body t) : Keeps f := by
  have hset : Keeps (draw fun scr => .ok (scr.setCursor 0) : ConsoleData T → _) :=
    keeps_draw fun scr hscr => ⟨_, rfl, setCursor_keeps hscr⟩
  cases op with
  | putStr s attr =>
    obtain ⟨c, hc, rfl⟩ := List.mem_map.mp hf
    have hne : c ≠ 0x08 := fun he => h (he ▸ hc)
    exact keeps_draw fun scr hscr => putChar_keeps attr hne hscr
  | putChar c attr =>
    obtain rfl := List.mem_singleton.mp hf
    exact keeps_draw fun scr hscr => putChar_keeps attr h hscr
  | getCharPos pos =>
    obtain rfl := List.mem_singleton.mp hf
    intro d hd
    obtain ⟨c, hc⟩ := getCharPos_ok d.screen h
    refine ⟨{ d with answer := Function.update d.answer t (some c) }, ?_, hd⟩
    show (d.screen.getCharPos pos).map _ = _
    rw [hc]
    rfl
  | putCharInPos c attr posX posY =>
    obtain rfl := List.mem_singleton.mp hf
    have hlt : posX.toNat * 80 + posY.toNat < 2000 := h
    have hpos : (posX.toUInt16 * 80 + posY.toUInt16).toNat = posX.toNat * 80 + posY.toNat := by
      rw [UInt16.toNat_add, UInt16.toNat_mul, UInt8.toNat_toUInt16, UInt8.toNat_toUInt16]
      show (posX.toNat * 80 % 65536 + posY.toNat) % 65536 = _
      omega
    exact keeps_draw fun scr hscr => putCharPos_ok hscr c attr (by rw [hpos]; exact hlt)
  | putStrInPos s attr posX posY =>
    have hpos : (posX.toUInt32 * 80 + posY.toUInt32).toNat = posX.toNat * 80 + posY.toNat := by
      have hx := posX.toNat_lt
      have hy := posY.toNat_lt
      rw [UInt32.toNat_add, UInt32.toNat_mul, UInt8.toNat_toUInt32, UInt8.toNat_toUInt32]
      show (posX.toNat * 80 % 4294967296 + posY.toNat) % 4294967296 = _
      omega
    exact posActions_keeps attr (by rw [hpos]; exact h) hf
  | clear =>
    rcases List.mem_append.mp hf with hf | hf
    · rcases List.mem_cons.mp hf with rfl | hf
      · exact hset
      · obtain rfl := List.eq_of_mem_replicate hf
        exact keeps_draw fun scr hscr => putChar_keeps 0x07 (by decide) hscr
    · obtain rfl := List.mem_singleton.mp hf
      exact hset

omit [DecidableEq T] in
theorem runActions_keeps {fs : List (ConsoleData T → Except Fault (ConsoleData T))} (hfs : ∀ f ∈ fs, Keeps f)
    {d : ConsoleData T} (hd : d.screen.OnScreen) : ∃ d', runActions fs d = .ok d' ∧ d'.screen.OnScreen := by
  induction fs generalizing d with
  | nil => exact ⟨d, rfl, hd⟩
  | cons f fs ih =>
    obtain ⟨d₁, hok, hd₁⟩ := hfs f List.mem_cons_self d hd
    rw [runActions_cons, hok]
    exact ih (fun g hg => hfs g (List.mem_cons_of_mem f hg)) hd₁

omit [DecidableEq T] in
/-- What a handler draws stays on the screen, unless it is the echo of a backspace. -/
theorem handler_keeps {i : HandlerDraw} (hi : i ≠ .key 0x08) :
    Keeps (draw (fun scr => i.draw scr) : ConsoleData T → _) := by
  cases i with
  | tick fhlCount => exact keeps_draw fun scr hscr => putCharPos_ok hscr _ _ (by decide)
  | key c =>
    have hne : c ≠ 0x08 := fun he => hi (congrArg _ he)
    exact keeps_draw fun scr hscr => putChar_keeps 0x07 hne hscr
  | unknownKey => exact keeps_draw fun scr hscr => putStr_keeps 0x07 (by decide) hscr

omit [DecidableEq T] in
/-- Actions that keep the screen in order, in any order. -/
theorem actAll_keeps {fs : List (Except Fault (ConsoleData T) → Except Fault (ConsoleData T))}
    (hfs : ∀ f ∈ fs, ∃ g, Keeps g ∧ f = fun r => r >>= g) {d : ConsoleData T} (hd : d.screen.OnScreen) :
    ∃ d', Sections.actAll fs (.ok d) = .ok d' ∧ d'.screen.OnScreen := by
  induction fs generalizing d with
  | nil => exact ⟨d, rfl, hd⟩
  | cons f fs ih =>
    obtain ⟨g, hg, rfl⟩ := hfs f List.mem_cons_self
    obtain ⟨d₁, hok, hd₁⟩ := hg d hd
    obtain ⟨d', hrest, hd'⟩ := ih (fun f' hf' => hfs f' (List.mem_cons_of_mem _ hf')) hd₁
    refine ⟨d', ?_, hd'⟩
    rw [← hok] at hrest
    exact hrest

/-- **The screen of several threads.** If no thread prints a backspace or a positioned text that leaves the
screen, and no backspace is typed, then the cursor of all threads and every store stay on the screen, in
every interleaving and at every moment, and no thread faults. -/
theorem console_shared_onScreen {d : ConsoleData T} (hd : d.screen.OnScreen)
    {s : LockedCalls T Unit ConsoleOp (Except Fault (ConsoleData T))}
    (h : LockedCalls.Reaches () actions (handlers fun i => i ≠ .key 0x08) (.ok d) s)
    (hsafe : ∀ t, ∀ op ∈ s.made t, op.Safe) : ∃ d', s.data = .ok d' ∧ d'.screen.OnScreen := by
  obtain ⟨hdata, hnoisy, hserial⟩ := h.inOrder
  have hlogged : ∀ e ∈ s.log, e.2.Safe := by
    intro e he
    refine hsafe e.1 e.2 ?_
    rw [h.made]
    have hcalls : e.2 ∈ LockedCalls.callsOf e.1 s.log :=
      List.mem_map.mpr ⟨e, List.mem_filter.mpr ⟨he, decide_eq_true rfl⟩, rfl⟩
    exact List.mem_append_left _ hcalls
  have hkeeps : ∀ f ∈ s.hist.map Prod.snd, ∃ g, Keeps g ∧ f = fun r => r >>= g := by
    intro f hf
    obtain ⟨⟨own, f⟩, hmem, rfl⟩ := List.mem_map.mp hf
    cases own with
    | true =>
      obtain ⟨e, he, hact⟩ := hserial.mem_own (Sections.mem_own.mpr hmem)
      obtain ⟨g, hg, rfl⟩ := List.mem_map.mp hact
      exact ⟨g, (hlogged e he).body_keeps e.1 hg, rfl⟩
    | false =>
      obtain ⟨i, hi, rfl⟩ := hnoisy f hmem
      exact ⟨_, handler_keeps hi, rfl⟩
  obtain ⟨d', hok, hd'⟩ := actAll_keeps hkeeps hd
  exact ⟨d', hdata.trans hok, hd'⟩

/-- One thread prints two characters, the other one clears the screen. -/
theorem console_shared_onScreen_first :
    ∃ s : LockedCalls Bool Unit ConsoleOp (Except Fault (ConsoleData Bool)),
      s.locks.pc true = .blocked () ∧ ∃ d', s.data = .ok d' ∧ d'.screen.OnScreen := by
  obtain ⟨s, hreach, hfalse, htrue, -, hblocked⟩ := reaches_first
  refine ⟨s, hblocked, console_shared_onScreen blankScreen_onScreen hreach fun t op hop => ?_⟩
  cases t with
  | false =>
    rw [hfalse] at hop
    obtain rfl := List.mem_singleton.mp hop
    show (0x08 : UInt8) ∉ Screen.cString [0x41, 0x42]
    decide
  | true =>
    rw [htrue] at hop
    obtain rfl := List.mem_singleton.mp hop
    trivial

end ConsoleOp

end GwOS
