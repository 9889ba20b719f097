import GwOS.Device.IoqueueLock

/-!
# The keyboard (`device/keyboard.c`)

The handler gets one byte of scancode set 1 at each interrupt: a make code when a key goes down
or repeats, the same code with bit 7 set when it goes up, and a byte `0xe0` before the codes of
the extended keys. It keeps one flag for each of Shift, Ctrl and Alt and puts characters into
`keyboard_ioq`. What it prints on the screen is left out.

`Desk` is what really happens: which keys are down, and the state of caps lock. Every key has a
make and a break code here; the Pause key, which has no break code, is left out.

- `keyboard_tracks`: the three flags say which modifiers are down in every run in which no
  modifier key goes up while the other key of its pair is down, and in exactly these; and each
  character is the column of `keymap` that Shift and caps lock ask for.
- `keyboard_losesShift`: with both Shift keys down, one of them going up clears `shift_status`.
-/

namespace GwOS

/-! ## The handler -/

/-- The static variables of `keyboard.c`, with the two flags of `exec.c` that it uses. -/
structure Keyboard where
  ctrlStatus : Bool
  shiftStatus : Bool
  altStatus : Bool
  capsLockStatus : Bool
  extScancode : Bool
  execFlag : Bool
  releaseFlag : Bool
  deriving DecidableEq

def shiftLMake : UInt16 := 0x2a
def shiftRMake : UInt16 := 0x36
def altLMake : UInt16 := 0x38
def altRMake : UInt16 := 0xe038
def ctrlLMake : UInt16 := 0x1d
def ctrlRMake : UInt16 := 0xe01d
def capsLockMake : UInt16 := 0x3a

/-- One row of `keymap`: without Shift, with Shift. -/
def keyRow (plain shifted : Char) : UInt8 × UInt8 :=
  (plain.toNat.toUInt8, shifted.toNat.toUInt8)

/-- `esc`. -/
def escChar : UInt8 := 0x1b

/-- `keymap`, the row of a make code at its index. -/
def keymap : List (UInt8 × UInt8) :=
  [(0, 0), (escChar, escChar), keyRow '1' '!', keyRow '2' '@', keyRow '3' '#', keyRow '4' '$',
    keyRow '5' '%', keyRow '6' '^', keyRow '7' '&', keyRow '8' '*', keyRow '9' '(', keyRow '0' ')',
    keyRow '-' '_', keyRow '=' '+', (0x08, 0x08), (0x09, 0x09),
    -- 0x10
    keyRow 'q' 'Q', keyRow 'w' 'W', keyRow 'e' 'E', keyRow 'r' 'R', keyRow 't' 'T', keyRow 'y' 'Y',
    keyRow 'u' 'U', keyRow 'i' 'I', keyRow 'o' 'O', keyRow 'p' 'P', keyRow '[' '\x7b',
    keyRow ']' '\x7d', (0x0d, 0x0d), (0, 0), keyRow 'a' 'A', keyRow 's' 'S',
    -- 0x20
    keyRow 'd' 'D', keyRow 'f' 'F', keyRow 'g' 'G', keyRow 'h' 'H', keyRow 'j' 'J', keyRow 'k' 'K',
    keyRow 'l' 'L', keyRow ';' ':', keyRow '\x27' '\x22', keyRow '\x60' '~', (0, 0),
    keyRow '\x5c' '|', keyRow 'z' 'Z', keyRow 'x' 'X', keyRow 'c' 'C', keyRow 'v' 'V',
    -- 0x30
    keyRow 'b' 'B', keyRow 'n' 'N', keyRow 'm' 'M', keyRow ',' '<', keyRow '.' '>', keyRow '/' '?',
    (0, 0), keyRow '*' '*', (0, 0), keyRow ' ' ' ', (0, 0)]

/-- The keys with two characters of their own, for which caps lock does not count. -/
def twoChars (scancode : UInt16) : Bool :=
  scancode < 0x0e || scancode = 0x29 || scancode = 0x1a || scancode = 0x1b || scancode = 0x2b ||
    scancode = 0x27 || scancode = 0x28 || scancode = 0x33 || scancode = 0x34 || scancode = 0x35

/-- The make codes that the handler deals with. -/
def handled (scancode : UInt16) : Bool :=
  (0x00 < scancode && scancode < 0x3b) || scancode = altRMake || scancode = ctrlRMake

namespace Keyboard

/-- A key goes up. -/
def breakKey (kbd : Keyboard) (makeCode : UInt16) : Keyboard :=
  if makeCode = ctrlLMake ∨ makeCode = ctrlRMake then { kbd with ctrlStatus := false }
  else if makeCode = shiftLMake ∨ makeCode = shiftRMake then { kbd with shiftStatus := false }
  else if makeCode = altLMake ∨ makeCode = altRMake then { kbd with altStatus := false }
  else kbd

/-- The variable `shift` of the handler: the column of `keymap`. -/
def shiftColumn (kbd : Keyboard) (scancode : UInt16) : Bool :=
  if twoChars scancode then kbd.shiftStatus
  else if kbd.shiftStatus && kbd.capsLockStatus then false
  else if kbd.shiftStatus || kbd.capsLockStatus then true
  else false

/-- What the handler does with a character: the second component goes to `ioq_putchar`. -/
def putCurChar (kbd : Keyboard) (full : Bool) (curChar : UInt8) : Keyboard × Option UInt8 :=
  if kbd.execFlag = false then (kbd, if full then none else some curChar)
  else if curChar = escChar then ({ kbd with releaseFlag := true }, none)
  else (kbd, if full then none else some curChar)

/-- A key without a character goes down. -/
def noteMake (kbd : Keyboard) (scancode : UInt16) : Keyboard :=
  if scancode = ctrlLMake ∨ scancode = ctrlRMake then { kbd with ctrlStatus := true }
  else if scancode = shiftLMake ∨ scancode = shiftRMake then { kbd with shiftStatus := true }
  else if scancode = altLMake ∨ scancode = altRMake then { kbd with altStatus := true }
  else if scancode = capsLockMake then { kbd with capsLockStatus := !kbd.capsLockStatus }
  else kbd

/-- A key that the handler deals with goes down. -/
def makeKey (kbd : Keyboard) (full : Bool) (scancode : UInt16) :
    Except Fault (Keyboard × Option UInt8) :=
  let shift := kbd.shiftColumn scancode
  let scancode := scancode &&& 0x00ff
  match keymap[scancode.toNat]? with
  | none => .error .outOfBounds
  | some (plain, shifted) =>
    let curChar := if shift then shifted else plain
    if curChar ≠ 0 then .ok (kbd.putCurChar full curChar)
    else .ok (kbd.noteMake scancode, none)

/-- `intr_keyboard_handler` on the byte of one interrupt; `full` is what `is_ioq_full` says of
`keyboard_ioq`. The second component is the character for `ioq_putchar`, if there is one. -/
def intrKeyboardHandler (kbd : Keyboard) (full : Bool) (byte : UInt8) :
    Except Fault (Keyboard × Option UInt8) :=
  let scancode := byte.toUInt16
  if scancode = 0xe0 then .ok ({ kbd with extScancode := true }, none)
  else
    let scancode := if kbd.extScancode then 0xe000 ||| scancode else scancode
    let kbd := { kbd with extScancode := false }
    if scancode &&& 0x0080 ≠ 0 then .ok (kbd.breakKey (scancode &&& 0xff7f), none)
    else if handled scancode then kbd.makeKey full scancode
    else .ok (kbd, none)

end Keyboard

/-- The keyboard with its queue and the threads that read from it. -/
structure KbdSys (T : Type) where
  kbd : Keyboard
  ioq : IoqSys T

namespace KbdSys

variable {T : Type} [DecidableEq T]

/-- The `ioq_putchar` of the handler, which is called on a queue that is not full. -/
def emit (s : KbdSys T) (kbd : Keyboard) (c : Option UInt8) : Except Fault (KbdSys T) :=
  match c with
  | none => .ok { s with kbd }
  | some c => do
    let ioq ← s.ioq.store c
    .ok ⟨kbd, ioq⟩

/-- One interrupt. -/
def interrupt (s : KbdSys T) (byte : UInt8) : Except Fault (KbdSys T) := do
  let (kbd, c) ← s.kbd.intrKeyboardHandler s.ioq.q.isIoqFull byte
  s.emit kbd c

/-- One interrupt after the other. -/
def interrupts (s : KbdSys T) (bytes : List UInt8) : Except Fault (KbdSys T) :=
  bytes.foldlM interrupt s

end KbdSys

/-! ## Keys -/

/-- A key: its make code, and whether the byte `0xe0` stands before its codes. Neither code of a
key is the byte `0xe0` itself. -/
structure Key where
  ext : Bool
  code : Fin 128
  valid : code ≠ 0 ∧ code ≠ 0x60
  deriving DecidableEq

namespace Key

def shiftL : Key := ⟨false, 0x2a, by decide⟩
def shiftR : Key := ⟨false, 0x36, by decide⟩
def ctrlL : Key := ⟨false, 0x1d, by decide⟩
def ctrlR : Key := ⟨true, 0x1d, by decide⟩
def altL : Key := ⟨false, 0x38, by decide⟩
def altR : Key := ⟨true, 0x38, by decide⟩
def capsLock : Key := ⟨false, 0x3a, by decide⟩

/-- The bytes of a key that goes down or repeats. -/
def makeBytes (k : Key) : List UInt8 :=
  if k.ext then [0xe0, k.code.val.toUInt8] else [k.code.val.toUInt8]

/-- The bytes of a key that goes up. -/
def breakBytes (k : Key) : List UInt8 :=
  if k.ext then [0xe0, (k.code.val + 0x80).toUInt8] else [(k.code.val + 0x80).toUInt8]

end Key

/-- The modifiers that the handler keeps track of. -/
inductive Modifier where
  | shift
  | ctrl
  | alt
  deriving DecidableEq

/-- The two keys of a modifier. -/
def Modifier.keys : Modifier → Key × Key
  | .shift => (.shiftL, .shiftR)
  | .ctrl => (.ctrlL, .ctrlR)
  | .alt => (.altL, .altR)

theorem Modifier.keys_ne (m : Modifier) : m.keys.1 ≠ m.keys.2 := by
  cases m <;> decide

/-- The flag of the handler for a modifier. -/
def Keyboard.status (kbd : Keyboard) : Modifier → Bool
  | .shift => kbd.shiftStatus
  | .ctrl => kbd.ctrlStatus
  | .alt => kbd.altStatus

/-- The key is one of the two keys of the modifier. -/
def Key.Of (k : Key) (m : Modifier) : Prop := k = m.keys.1 ∨ k = m.keys.2

instance (k : Key) (m : Modifier) : Decidable (k.Of m) := inferInstanceAs (Decidable (_ ∨ _))

/-- The character of a key, `0` for none: the second column with Shift, and for the keys without
two characters of their own the other column with caps lock. -/
def Key.char (k : Key) (shift caps : Bool) : UInt8 :=
  if k.ext then 0
  else
    let row := keymap[k.code.val]?.getD (0, 0)
    if (if twoChars k.code.val.toUInt16 then shift else xor shift caps) then row.2 else row.1

/-- The keys that are down, and the state of caps lock, which every make code of its key turns
over. -/
structure Desk where
  down : Key → Bool
  caps : Bool

/-- What a hand does. -/
inductive KeyEvent where
  | press (k : Key)
  /-- A key that is held sends its make code again. -/
  | again (k : Key)
  | release (k : Key)

namespace KeyEvent

def bytes : KeyEvent → List UInt8
  | .press k | .again k => k.makeBytes
  | .release k => k.breakBytes

def Possible (d : Desk) : KeyEvent → Prop
  | .press k => d.down k = false
  | .again k | .release k => d.down k = true

/-- The key that sends its make code. -/
def made : KeyEvent → Option Key
  | .press k | .again k => some k
  | .release _ => none

end KeyEvent

namespace Desk

def start : Desk := ⟨fun _ => false, false⟩

def step (d : Desk) : KeyEvent → Desk
  | .press k | .again k =>
    ⟨Function.update d.down k true, if k = .capsLock then !d.caps else d.caps⟩
  | .release k => { d with down := Function.update d.down k false }

/-- At least one key of the modifier is down. -/
def held (d : Desk) (m : Modifier) : Bool := d.down m.keys.1 || d.down m.keys.2

/-- The character that a key stands for when it sends its make code. -/
def char (d : Desk) (k : Key) : UInt8 := k.char (d.held .shift) d.caps

end Desk

/-! ## What the codes of a key do -/

namespace Key

/-- The make code as the handler puts it together. -/
def scancode (k : Key) : UInt16 :=
  if k.ext then 0xe000 ||| k.code.val.toUInt8.toUInt16 else k.code.val.toUInt8.toUInt16

/-- No modifier and not caps lock. -/
def Plain (k : Key) : Prop := ¬ k.Of .shift ∧ ¬ k.Of .ctrl ∧ ¬ k.Of .alt ∧ k ≠ .capsLock

instance (k : Key) : Decidable k.Plain := inferInstanceAs (Decidable (_ ∧ _))

/-- Neither byte is the prefix, and bit 7 tells a break code from a make code. -/
theorem codes (k : Key) :
    k.code.val.toUInt8.toUInt16 ≠ 0xe0 ∧ (k.code.val + 0x80).toUInt8.toUInt16 ≠ 0xe0 ∧
    k.scancode &&& 0x0080 = 0 ∧
    (if k.ext then 0xe000 ||| (k.code.val + 0x80).toUInt8.toUInt16
      else (k.code.val + 0x80).toUInt8.toUInt16) &&& 0x0080 ≠ 0 ∧
    (if k.ext then 0xe000 ||| (k.code.val + 0x80).toUInt8.toUInt16
      else (k.code.val + 0x80).toUInt8.toUInt16) &&& 0xff7f = k.scancode := by
  have hall : ∀ (ext : Bool) (code : Fin 128) (h : code ≠ 0 ∧ code ≠ 0x60),
      code.val.toUInt8.toUInt16 ≠ 0xe0 ∧ (code.val + 0x80).toUInt8.toUInt16 ≠ 0xe0 ∧
      (⟨ext, code, h⟩ : Key).scancode &&& 0x0080 = 0 ∧
      (if ext then 0xe000 ||| (code.val + 0x80).toUInt8.toUInt16
        else (code.val + 0x80).toUInt8.toUInt16) &&& 0x0080 ≠ 0 ∧
      (if ext then 0xe000 ||| (code.val + 0x80).toUInt8.toUInt16
        else (code.val + 0x80).toUInt8.toUInt16) &&& 0xff7f = (⟨ext, code, h⟩ : Key).scancode := by
    decide +kernel
  exact hall k.ext k.code k.valid

/-- A key has a row with two characters, is a modifier or caps lock, or is unknown. -/
theorem kinds (k : Key) :
    (handled k.scancode = false ∧ k.Plain ∧ (k.ext = true ∨ keymap[k.code.val]? = none)) ∨
    (handled k.scancode = true ∧ k.Plain ∧ k.ext = false ∧
      (k.scancode &&& 0x00ff).toNat = k.code.val ∧ twoChars k.scancode = twoChars k.code.val.toUInt16 ∧
      ((keymap[k.code.val]?.any fun r => r.1 ≠ 0 && r.2 ≠ 0) = true)) ∨
    k ∈ [shiftL, shiftR, ctrlL, ctrlR, altL, altR, capsLock] := by
  have hall : ∀ (ext : Bool) (code : Fin 128) (h : code ≠ 0 ∧ code ≠ 0x60),
      (handled (⟨ext, code, h⟩ : Key).scancode = false ∧ (⟨ext, code, h⟩ : Key).Plain ∧
        (ext = true ∨ keymap[code.val]? = none)) ∨
      (handled (⟨ext, code, h⟩ : Key).scancode = true ∧ (⟨ext, code, h⟩ : Key).Plain ∧
        ext = false ∧ ((⟨ext, code, h⟩ : Key).scancode &&& 0x00ff).toNat = code.val ∧
        twoChars (⟨ext, code, h⟩ : Key).scancode = twoChars code.val.toUInt16 ∧
        ((keymap[code.val]?.any fun r => r.1 ≠ 0 && r.2 ≠ 0) = true)) ∨
      ⟨ext, code, h⟩ ∈ [shiftL, shiftR, ctrlL, ctrlR, altL, altR, capsLock] := by
    decide +kernel
  exact hall k.ext k.code k.valid

/-- The make codes of the modifiers are their own. -/
theorem scancode_of (k : Key) :
    (k.scancode = ctrlLMake ∨ k.scancode = ctrlRMake ↔ k.Of .ctrl) ∧
    (k.scancode = shiftLMake ∨ k.scancode = shiftRMake ↔ k.Of .shift) ∧
    (k.scancode = altLMake ∨ k.scancode = altRMake ↔ k.Of .alt) := by
  have hall : ∀ (ext : Bool) (code : Fin 128) (h : code ≠ 0 ∧ code ≠ 0x60),
      ((⟨ext, code, h⟩ : Key).scancode = ctrlLMake ∨ (⟨ext, code, h⟩ : Key).scancode = ctrlRMake ↔
        (⟨ext, code, h⟩ : Key).Of .ctrl) ∧
      ((⟨ext, code, h⟩ : Key).scancode = shiftLMake ∨ (⟨ext, code, h⟩ : Key).scancode = shiftRMake ↔
        (⟨ext, code, h⟩ : Key).Of .shift) ∧
      ((⟨ext, code, h⟩ : Key).scancode = altLMake ∨ (⟨ext, code, h⟩ : Key).scancode = altRMake ↔
        (⟨ext, code, h⟩ : Key).Of .alt) := by
    decide +kernel
  exact hall k.ext k.code k.valid

/-- A key belongs to one modifier at most. -/
theorem Of.unique {k : Key} {m m' : Modifier} (h : k.Of m) (h' : k.Of m') : m = m' := by
  rcases h with rfl | rfl <;> cases m <;> cases m' <;> first | rfl | exact absurd h' (by decide)

end Key

namespace Keyboard

variable {kbd kbd' : Keyboard} {k : Key} {full : Bool}

/-- What of a character goes into the queue. -/
def queued (kbd : Keyboard) (full : Bool) (c : UInt8) : Option UInt8 :=
  if c = 0 ∨ full = true ∨ (kbd.execFlag = true ∧ c = escChar) then none else some c

/-- What the make code of a key does to the flags. -/
structure Made (kbd kbd' : Keyboard) (k : Key) : Prop where
  status : ∀ m, kbd'.status m = (kbd.status m || decide (k.Of m))
  caps : kbd'.capsLockStatus = if k = .capsLock then !kbd.capsLockStatus else kbd.capsLockStatus
  ext : kbd'.extScancode = kbd.extScancode

theorem Made.plain (hk : k.Plain) : Made kbd kbd k := by
  obtain ⟨hs, hc, ha, hcaps⟩ := hk
  refine ⟨fun m => ?_, (if_neg hcaps).symm, rfl⟩
  cases m <;> simp_all

/-- A character goes into the queue, or sets `release_flag`, or is lost. -/
theorem putCurChar_eq (kbd : Keyboard) (full : Bool) {c : UInt8} (hc : c ≠ 0) :
    (kbd.putCurChar full c).2 = kbd.queued full c := by
  rw [putCurChar, queued]
  cases kbd.execFlag <;> cases full <;> by_cases he : c = escChar <;> simp_all

theorem putCurChar_flags (kbd : Keyboard) (full : Bool) (c : UInt8) :
    ∃ b, (kbd.putCurChar full c).1 = { kbd with releaseFlag := b } := by
  rw [putCurChar]
  split
  · exact ⟨kbd.releaseFlag, rfl⟩
  · split
    · exact ⟨true, rfl⟩
    · exact ⟨kbd.releaseFlag, rfl⟩

/-- The `shift` of the handler is the column of the character. -/
theorem shiftColumn_eq (scancode : UInt16) :
    kbd.shiftColumn scancode =
      if twoChars scancode then kbd.shiftStatus else xor kbd.shiftStatus kbd.capsLockStatus := by
  rw [shiftColumn]
  cases kbd.shiftStatus <;> cases kbd.capsLockStatus <;> rfl

/-- **A make code**: its modifier is on, and its character is the one that the flags ask for. -/
theorem make_spec (kbd : Keyboard) (full : Bool) (k : Key) :
    ∃ kbd', (if handled k.scancode then kbd.makeKey full k.scancode else .ok (kbd, none)) =
        .ok (kbd', kbd.queued full (k.char kbd.shiftStatus kbd.capsLockStatus)) ∧
      Made kbd kbd' k := by
  rcases k.kinds with ⟨hh, hp, hnone⟩ | ⟨hh, hp, hext, hidx, htwo, hrow⟩ | hmem
  · have hchar : k.char kbd.shiftStatus kbd.capsLockStatus = 0 := by
      rcases hnone with he | he
      · simp [Key.char, he]
      · simp [Key.char, he]
    rw [hh, hchar]
    exact ⟨kbd, rfl, .plain hp⟩
  · obtain ⟨⟨plain, shifted⟩, hget, hne⟩ : ∃ r, keymap[k.code.val]? = some r ∧ r.1 ≠ 0 ∧ r.2 ≠ 0 := by
      cases hget : keymap[k.code.val]? with
      | none =>
        rw [hget] at hrow
        cases hrow
      | some r =>
        rw [hget] at hrow
        exact ⟨r, rfl, by simpa using hrow⟩
    have hchar : k.char kbd.shiftStatus kbd.capsLockStatus =
        if kbd.shiftColumn k.scancode then shifted else plain := by
      simp only [Key.char, hext, hget, shiftColumn_eq, htwo]
      rfl
    have hcur : (if kbd.shiftColumn k.scancode then shifted else plain) ≠ 0 := by
      split
      · exact hne.2
      · exact hne.1
    have hmake : kbd.makeKey full k.scancode =
        .ok (kbd.putCurChar full (if kbd.shiftColumn k.scancode then shifted else plain)) := by
      simp only [makeKey, hidx, hget]
      exact if_pos hcur
    obtain ⟨b, hkbd⟩ :=
      putCurChar_flags kbd full (if kbd.shiftColumn k.scancode then shifted else plain)
    refine ⟨(kbd.putCurChar full (if kbd.shiftColumn k.scancode then shifted else plain)).1, ?_, ?_⟩
    · rw [if_pos hh, hmake, hchar, ← putCurChar_eq kbd full hcur]
    · have hplain : Made kbd kbd k := .plain hp
      rw [hkbd]
      exact ⟨hplain.status, hplain.caps, rfl⟩
  · have hnote : handled k.scancode = true ∧ keymap[(k.scancode &&& 0x00ff).toNat]? = some (0, 0) ∧
        (∀ shift caps, k.char shift caps = 0) := by
      simp only [List.mem_cons, List.not_mem_nil, or_false] at hmem
      rcases hmem with rfl | rfl | rfl | rfl | rfl | rfl | rfl <;> decide
    obtain ⟨hh, hrow, hchar⟩ := hnote
    refine ⟨kbd.noteMake (k.scancode &&& 0x00ff), ?_, ?_⟩
    · rw [if_pos hh, hchar]
      simp only [makeKey, hrow, ite_self, ne_eq, not_true_eq_false, if_false]
      rfl
    · simp only [List.mem_cons, List.not_mem_nil, or_false] at hmem
      rcases hmem with rfl | rfl | rfl | rfl | rfl | rfl | rfl
      all_goals
        refine ⟨fun m => ?_, rfl, rfl⟩
        cases m <;> first | exact (Bool.or_false _).symm | exact (Bool.or_true _).symm

/-- **A break code**: its modifier is off. -/
theorem break_spec (kbd : Keyboard) (k : Key) :
    (∀ m, (kbd.breakKey k.scancode).status m = (kbd.status m && !decide (k.Of m))) ∧
    (kbd.breakKey k.scancode).capsLockStatus = kbd.capsLockStatus ∧
    (kbd.breakKey k.scancode).extScancode = kbd.extScancode := by
  obtain ⟨hctrl, hshift, halt⟩ := k.scancode_of
  simp only [breakKey, hctrl, hshift, halt]
  by_cases hc : k.Of .ctrl
  · have hs : ¬ k.Of .shift := fun h => nomatch h.unique hc
    have ha : ¬ k.Of .alt := fun h => nomatch h.unique hc
    refine ⟨fun m => ?_, by simp [hc], by simp [hc]⟩
    cases m <;> simp [status, hc, hs, ha]
  · by_cases hs : k.Of .shift
    · have ha : ¬ k.Of .alt := fun h => nomatch h.unique hs
      refine ⟨fun m => ?_, by simp [hc, hs], by simp [hc, hs]⟩
      cases m <;> simp [status, hc, hs, ha]
    · by_cases ha : k.Of .alt
      · refine ⟨fun m => ?_, by simp [hc, hs, ha], by simp [hc, hs, ha]⟩
        cases m <;> simp [status, hc, hs, ha]
      · refine ⟨fun m => ?_, by simp [hc, hs, ha], by simp [hc, hs, ha]⟩
        cases m <;> simp [status, hc, hs, ha]

end Keyboard

namespace KbdSys

variable {T : Type} [DecidableEq T] {s s' : KbdSys T} {k : Key}

theorem interrupt_ext (s : KbdSys T) :
    s.interrupt 0xe0 = .ok { s with kbd := { s.kbd with extScancode := true } } := rfl

/-- The bytes of a make code, one or two, are one step. -/
theorem interrupts_make (hext : s.kbd.extScancode = false) (k : Key) :
    s.interrupts k.makeBytes =
      (if handled k.scancode then s.kbd.makeKey s.ioq.q.isIoqFull k.scancode
        else .ok (s.kbd, none)) >>= fun r => s.emit r.1 r.2 := by
  obtain ⟨hpre, -, hmake, -⟩ := k.codes
  have hkbd : { s.kbd with extScancode := false } = s.kbd := by rw [← hext]
  cases hk : k.ext with
  | false =>
    have hsc : k.scancode = k.code.val.toUInt8.toUInt16 := by rw [Key.scancode, hk]; rfl
    rw [hsc] at hmake ⊢
    simp only [Key.makeBytes, hk, Bool.false_eq_true, if_false, interrupts, List.foldlM_cons,
      List.foldlM_nil, bind_pure, interrupt, Keyboard.intrKeyboardHandler, hpre, hext, hmake,
      ne_eq, not_true_eq_false, hkbd]
  | true =>
    have hsc : k.scancode = 0xe000 ||| k.code.val.toUInt8.toUInt16 := by rw [Key.scancode, hk]; rfl
    rw [hsc] at hmake ⊢
    simp only [Key.makeBytes, hk, if_true, interrupts, List.foldlM_cons, List.foldlM_nil,
      bind_pure, interrupt_ext]
    show interrupt { s with kbd := { s.kbd with extScancode := true } } _ = _
    simp only [interrupt, Keyboard.intrKeyboardHandler, hpre, if_false, if_true, hmake, ne_eq,
      not_true_eq_false, hkbd]
    rfl

/-- The bytes of a break code touch nothing but the flags. -/
theorem interrupts_break (hext : s.kbd.extScancode = false) (k : Key) :
    s.interrupts k.breakBytes = .ok { s with kbd := s.kbd.breakKey k.scancode } := by
  obtain ⟨-, hpre, -, hbreak, hmask⟩ := k.codes
  have hkbd : { s.kbd with extScancode := false } = s.kbd := by rw [← hext]
  cases hk : k.ext with
  | false =>
    rw [hk] at hbreak hmask
    simp only [Bool.false_eq_true, if_false] at hbreak hmask
    simp only [Key.breakBytes, hk, Bool.false_eq_true, if_false, interrupts, List.foldlM_cons,
      List.foldlM_nil, bind_pure, interrupt, Keyboard.intrKeyboardHandler, hpre, hext, hbreak,
      ne_eq, not_false_eq_true, if_true, hkbd, hmask]
    rfl
  | true =>
    rw [hk] at hbreak hmask
    simp only [if_true] at hbreak hmask
    simp only [Key.breakBytes, hk, if_true, interrupts, List.foldlM_cons, List.foldlM_nil,
      bind_pure, interrupt_ext]
    show interrupt { s with kbd := { s.kbd with extScancode := true } } _ = _
    simp only [interrupt, Keyboard.intrKeyboardHandler, hpre, if_false, if_true, hbreak, ne_eq,
      not_false_eq_true, hkbd, hmask]
    rfl

/-! ## Runs -/

/-- The flags say what is down. -/
structure Tracks (kbd : Keyboard) (d : Desk) : Prop where
  status : ∀ m, kbd.status m = d.held m
  caps : kbd.capsLockStatus = d.caps
  /-- Between two keys no prefix is open. -/
  ext : kbd.extScancode = false

/-- No modifier key goes up while the other key of its pair is down. -/
def Apart (d : Desk) : KeyEvent → Prop
  | .press _ | .again _ => True
  | .release k => ∀ m : Modifier,
      (k = m.keys.1 → d.down m.keys.2 = false) ∧ (k = m.keys.2 → d.down m.keys.1 = false)

/-- The modifiers that are held when a key has gone down. -/
theorem held_make (d : Desk) (k : Key) (caps : Bool) (m : Modifier) :
    Desk.held ⟨Function.update d.down k true, caps⟩ m = (d.held m || decide (k.Of m)) := by
  by_cases h1 : k = m.keys.1
  · subst h1
    simp [Desk.held, Key.Of]
  · by_cases h2 : k = m.keys.2
    · subst h2
      simp [Desk.held, Key.Of]
    · have hof : ¬ k.Of m := fun h => h.elim h1 h2
      simp [Desk.held, hof, Function.update_of_ne (Ne.symm h1), Function.update_of_ne (Ne.symm h2)]

/-- The modifiers that are held when a key has gone up are those that the handler keeps on,
unless the other key of the pair is down. -/
theorem held_break (d : Desk) (k : Key) :
    (∀ m, (d.held m && !decide (k.Of m)) = (d.step (.release k)).held m) ↔ Apart d (.release k) := by
  refine forall_congr' fun m => ?_
  have hne := m.keys_ne
  by_cases h1 : k = m.keys.1
  · subst h1
    simp only [Desk.held, Desk.step, Key.Of, Function.update_self,
      Function.update_of_ne (Ne.symm hne), true_or, decide_true, Bool.not_true, Bool.and_false,
      Bool.false_or, forall_const, hne, false_imp_iff, and_true]
    exact eq_comm
  · by_cases h2 : k = m.keys.2
    · subst h2
      simp only [Desk.held, Desk.step, Key.Of, Function.update_self, Function.update_of_ne hne,
        or_true, decide_true, Bool.not_true, Bool.and_false, Bool.or_false, forall_const,
        Ne.symm hne, false_imp_iff, true_and]
      exact eq_comm
    · have hof : ¬ k.Of m := fun h => h.elim h1 h2
      simp [Desk.held, Desk.step, hof, h1, h2, Function.update_of_ne (Ne.symm h1),
        Function.update_of_ne (Ne.symm h2)]

/-- The keyboard and the desk, step by step: a key, a step of a reader, or a change of the
flags of `exec.c`. -/
inductive Step (Allowed : Desk → KeyEvent → Prop) : KbdSys T × Desk → KbdSys T × Desk → Prop
  | key {s s' : KbdSys T} {d : Desk} (e : KeyEvent) (hp : e.Possible d) (ha : Allowed d e)
      (h : s.interrupts e.bytes = .ok s') : Step Allowed (s, d) (s', d.step e)
  | reader {s : KbdSys T} {d : Desk} {ioq : IoqSys T} (h : s.ioq.Step IoqSys.PutsGuarded ioq) :
      Step Allowed (s, d) ({ s with ioq }, d)
  | flags {s : KbdSys T} {d : Desk} (execFlag releaseFlag : Bool) :
      Step Allowed (s, d) ({ s with kbd := { s.kbd with execFlag, releaseFlag } }, d)

/-- The keyboard after `keyboard_init`, with every key up. -/
def start (buf : Vector UInt8 bufSize) : KbdSys T :=
  ⟨⟨false, false, false, false, false, false, false⟩, IoqSys.init buf⟩

def Reachable (Allowed : Desk → KeyEvent → Prop) (buf : Vector UInt8 bufSize) (s : KbdSys T)
    (d : Desk) : Prop :=
  Relation.ReflTransGen (Step Allowed) (start buf, Desk.start) (s, d)

/-- The characters that an event puts into the queue. -/
def chars (s : KbdSys T) (d : Desk) (e : KeyEvent) : List UInt8 :=
  match e.made with
  | none => []
  | some k => (s.kbd.queued s.ioq.q.isIoqFull (d.char k)).toList

section Runs

variable {d : Desk} {Allowed : Desk → KeyEvent → Prop} {buf : Vector UInt8 bufSize}

/-- A character goes into a queue that is not full, as an interrupt of the queue. -/
theorem emit_spec (hr : s.ioq.Reachable IoqSys.PutsGuarded buf) (kbd kbd' : Keyboard) (c : UInt8) :
    ∃ s', s.emit kbd' (kbd.queued s.ioq.q.isIoqFull c) = .ok s' ∧ s'.kbd = kbd' ∧
      s'.ioq.Reachable IoqSys.PutsGuarded buf ∧
      s'.ioq.put = s.ioq.put ++ (kbd.queued s.ioq.q.isIoqFull c).toList := by
  rw [Keyboard.queued]
  split
  · exact ⟨_, rfl, rfl, hr, (List.append_nil _).symm⟩
  · next hq =>
    rw [not_or, not_or] at hq
    have hroom : s.ioq.q.isIoqFull = false := Bool.eq_false_iff.mpr hq.2.1
    obtain ⟨ioq, hstore⟩ := hr.execGuarded (fun _ _ h => h) (a := .interrupt c) hroom
    have hstore' : s.ioq.store c = .ok ioq := hstore
    refine ⟨⟨kbd', ioq⟩, ?_, rfl, hr.tail ⟨.interrupt c, hroom, nofun, hstore⟩, ?_⟩
    · rw [emit, hstore']
      rfl
    · exact IoqSys.store_put s.ioq c ioq hstore'

/-- **One event**: the handler returns, the flags follow the keys when no pair is broken up, and
the character is the one that the desk asks for. -/
theorem event_spec (hr : s.ioq.Reachable IoqSys.PutsGuarded buf) (ht : Tracks s.kbd d)
    (e : KeyEvent) :
    ∃ s', s.interrupts e.bytes = .ok s' ∧ s'.ioq.Reachable IoqSys.PutsGuarded buf ∧
      s'.kbd.capsLockStatus = (d.step e).caps ∧ s'.kbd.extScancode = false ∧
      ((∀ m, s'.kbd.status m = (d.step e).held m) ↔ Apart d e) ∧
      s'.ioq.put = s.ioq.put ++ s.chars d e := by
  have hmake : ∀ k : Key, ∃ s', s.interrupts k.makeBytes = .ok s' ∧
      s'.ioq.Reachable IoqSys.PutsGuarded buf ∧ Keyboard.Made s.kbd s'.kbd k ∧
      s'.ioq.put = s.ioq.put ++ (s.kbd.queued s.ioq.q.isIoqFull (d.char k)).toList := by
    intro k
    obtain ⟨kbd', hkey, hmade⟩ := s.kbd.make_spec s.ioq.q.isIoqFull k
    have hchar : k.char s.kbd.shiftStatus s.kbd.capsLockStatus = d.char k := by
      rw [Desk.char, ← ht.status .shift, ← ht.caps]
      rfl
    rw [hchar] at hkey
    obtain ⟨s', hemit, rfl, hr', hput⟩ := emit_spec hr s.kbd kbd' (d.char k)
    refine ⟨s', ?_, hr', hmade, hput⟩
    rw [interrupts_make ht.ext, hkey]
    exact hemit
  have hmade : ∀ {k : Key} {s' : KbdSys T}, Keyboard.Made s.kbd s'.kbd k →
      s'.kbd.capsLockStatus = (if k = .capsLock then !d.caps else d.caps) ∧
      s'.kbd.extScancode = false ∧
      ∀ m caps, s'.kbd.status m = Desk.held ⟨Function.update d.down k true, caps⟩ m := by
    intro k s' h
    refine ⟨by rw [h.caps, ht.caps], by rw [h.ext, ht.ext], fun m caps => ?_⟩
    rw [h.status, ht.status, held_make]
  cases e with
  | press k | again k =>
    obtain ⟨s', hok, hr', hm, hput⟩ := hmake k
    obtain ⟨hcaps, hext, hstatus⟩ := hmade hm
    exact ⟨s', hok, hr', hcaps, hext, iff_of_true (fun m => hstatus m _) trivial, hput⟩
  | release k =>
    obtain ⟨hstatus, hcaps, hext⟩ := s.kbd.break_spec k
    refine ⟨_, interrupts_break ht.ext k, hr, hcaps.trans ht.caps, hext.trans ht.ext, ?_,
      (List.append_nil _).symm⟩
    rw [← held_break]
    refine forall_congr' fun m => ?_
    rw [hstatus, ht.status]

/-- **A run** keeps the flags in step with the keys. -/
theorem Reachable.tracks (hr : Reachable Apart buf s d) :
    Tracks s.kbd d ∧ s.ioq.Reachable IoqSys.PutsGuarded buf := by
  suffices h : ∀ p : KbdSys T × Desk, Relation.ReflTransGen (Step Apart) (start buf, Desk.start) p →
      Tracks p.1.kbd p.2 ∧ p.1.ioq.Reachable IoqSys.PutsGuarded buf from h (s, d) hr
  intro p hp
  induction hp with
  | refl =>
    refine ⟨⟨fun m => ?_, rfl, rfl⟩, .refl⟩
    cases m <;> rfl
  | tail _ hstep ih =>
    obtain ⟨ht, hq⟩ := ih
    cases hstep with
    | key e hp ha hok =>
      obtain ⟨s₁, hok₁, hr₁, hcaps, hext, hiff, -⟩ := event_spec hq ht e
      rw [hok] at hok₁
      cases hok₁
      exact ⟨⟨hiff.mpr ha, hcaps, hext⟩, hr₁⟩
    | reader h => exact ⟨ht, hq.tail h⟩
    | flags execFlag releaseFlag =>
      refine ⟨⟨fun m => ?_, ht.caps, ht.ext⟩, hq⟩
      rw [← ht.status m]
      cases m <;> rfl

end Runs

/-- **The flags say which modifiers are down**, in every state of the runs in which no modifier
key goes up while the other key of its pair is down. From such a state the handler takes every
event, the flags are right after it exactly when the event meets the condition, and the
character that it puts into the queue is the column that Shift and caps lock ask for. -/
theorem keyboard_tracks {buf : Vector UInt8 bufSize} {d : Desk} (hr : Reachable Apart buf s d) :
    (s.kbd.shiftStatus = (d.down .shiftL || d.down .shiftR)) ∧
    (s.kbd.ctrlStatus = (d.down .ctrlL || d.down .ctrlR)) ∧
    (s.kbd.altStatus = (d.down .altL || d.down .altR)) ∧
    ∀ e : KeyEvent, e.Possible d → ∃ s', s.interrupts e.bytes = .ok s' ∧
      ((∀ m, s'.kbd.status m = (d.step e).held m) ↔ Apart d e) ∧
      s'.ioq.put = s.ioq.put ++ s.chars d e := by
  obtain ⟨ht, hq⟩ := hr.tracks
  refine ⟨ht.status .shift, ht.status .ctrl, ht.status .alt, fun e _ => ?_⟩
  obtain ⟨s', hok, -, -, -, hiff, hput⟩ := event_spec hq ht e
  exact ⟨s', hok, hiff, hput⟩

/-- The key of `a`. -/
def keyA : Key := ⟨false, 0x1e, by decide⟩

/-- Left Shift, right Ctrl and left Alt go down and left Alt goes up again: two flags are on, and
the key of `a` puts an `A` into the queue. -/
theorem keyboard_tracks_modifiers :
    ∃ (s : KbdSys Unit) (d : Desk), Reachable Apart (Vector.replicate bufSize 0) s d ∧
      s.kbd.shiftStatus = true ∧ s.kbd.ctrlStatus = true ∧ s.kbd.altStatus = false ∧
      ∃ s', s.interrupts keyA.makeBytes = .ok s' ∧ s'.kbd.ctrlStatus = true ∧
        s'.ioq.put = ['A'.toNat.toUInt8] := by
  have h1 : Reachable Apart (Vector.replicate bufSize 0) _ _ :=
    .tail .refl (.key (s := (start _ : KbdSys Unit)) (.press .shiftL) rfl trivial rfl)
  have h2 : Reachable Apart (Vector.replicate bufSize 0) _ _ :=
    .tail h1 (.key (.press .ctrlR) rfl trivial rfl)
  have h3 : Reachable Apart (Vector.replicate bufSize 0) _ _ :=
    .tail h2 (.key (.press .altL) rfl trivial rfl)
  have h4 : Reachable Apart (Vector.replicate bufSize 0) _ _ :=
    .tail h3 (.key (.release .altL) rfl (by rintro (_ | _ | _) <;> decide) rfl)
  obtain ⟨hshift, hctrl, halt, hevent⟩ := keyboard_tracks h4
  obtain ⟨s', hok, hflags, hput⟩ := hevent (.press keyA) rfl
  exact ⟨_, _, h4, hshift, hctrl, halt, s', hok, hflags.mpr trivial .ctrl, hput⟩

/-- Left Shift down, right Shift down, right Shift up: left Shift is still down, and the flag is
off. -/
theorem keyboard_losesShift :
    ∃ (s : KbdSys Unit) (d : Desk), Reachable (fun _ _ => True) (Vector.replicate bufSize 0) s d ∧
      d.down .shiftL = true ∧ s.kbd.shiftStatus = false := by
  have h1 : Reachable (fun _ _ => True) (Vector.replicate bufSize 0) _ _ :=
    .tail .refl (.key (s := (start _ : KbdSys Unit)) (.press .shiftL) rfl trivial rfl)
  have h2 : Reachable (fun _ _ => True) (Vector.replicate bufSize 0) _ _ :=
    .tail h1 (.key (.press .shiftR) rfl trivial rfl)
  have h3 : Reachable (fun _ _ => True) (Vector.replicate bufSize 0) _ _ :=
    .tail h2 (.key (.release .shiftR) rfl trivial rfl)
  exact ⟨_, _, h3, rfl, rfl⟩

end KbdSys

end GwOS
