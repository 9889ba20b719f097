import Mathlib.Logic.Function.Basic
import GwOS.Kernel.Debug

/-!
# The text console (`lib/kernel/print_asm.asm`, `device/console.c`)

The screen has 2000 cells of two bytes each, a character and its attribute. The code keeps no
position of its own: it reads the cursor from the CRT controller in two halves, moves it in the
16-bit register `bx`, and stores through the segment `gs`, whose limit is `0x7FFF`
(`boot/include/boot.inc`). A store behind the limit is a general protection fault, here
`Fault.outOfBounds`.

`nextCell` is what a character does to the position, as a rule for cell numbers.

- `putChar_ok`: with the cursor on the screen, `put_char` follows `nextCell` and stores to the
  screen only, unless it gets a backspace in the first cell.
- `console_stays_iff`: which sequences of calls leave the cursor and all stores on the screen.
  Neither the backspace nor the position of `write_in_pos` is checked.
-/

namespace GwOS

/-! ## Registers and memory -/

/-- The cursor location of the CRT controller, the video memory, and the offsets of the bytes
that have been stored there, newest first. -/
structure Screen where
  cursorHigh : UInt8
  cursorLow : UInt8
  video : Nat → UInt8
  stores : List Nat

/-- The limit of the segment `gs`: `DESC_VIDEO_LOW4` says `00007h`, in units of 4 KiB. -/
def videoLimit : Nat := 0x7FFF

namespace Screen

/-- `in al, dx` for both halves, as `ax`. -/
def cursor (scr : Screen) : UInt16 :=
  UInt16.ofNat (scr.cursorHigh.toNat * 256 + scr.cursorLow.toNat)

/-- `.set_cursor` -/
def setCursor (scr : Screen) (bx : UInt16) : Screen :=
  { scr with cursorHigh := UInt8.ofNat (bx.toNat / 256), cursorLow := UInt8.ofNat bx.toNat }

/-- A byte store, without the check of a segment limit. -/
def poke (scr : Screen) (off : Nat) (v : UInt8) : Screen :=
  { scr with video := Function.update scr.video off v, stores := off :: scr.stores }

/-- `mov byte [gs:bx], v` -/
def store (scr : Screen) (bx : UInt16) (v : UInt8) : Except Fault Screen :=
  if bx.toNat ≤ videoLimit then .ok (scr.poke bx.toNat v) else .error .outOfBounds

/-- `cmp bx, 2000` and `jl`: the comparison is one of signed numbers. -/
def below2000 (bx : UInt16) : Bool := bx.toBitVec.slt 2000#16

/-! ## `put_char` -/

/-- `rep movsd` with `ecx = n`. Both addresses are in the flat segment. -/
def repMovsd : Nat → Nat → Nat → Screen → Screen
  | 0, _, _, scr => scr
  | n + 1, esi, edi, scr =>
    let scr := scr.poke edi (scr.video esi)
    let scr := scr.poke (edi + 1) (scr.video (esi + 1))
    let scr := scr.poke (edi + 2) (scr.video (esi + 2))
    let scr := scr.poke (edi + 3) (scr.video (esi + 3))
    repMovsd n (esi + 4) (edi + 4) scr

/-- `.cls` with `ecx = n`: words `0x0720`, a white blank on black. -/
def cls : Nat → Nat → Screen → Screen
  | 0, _, scr => scr
  | n + 1, ebx, scr => cls n (ebx + 2) ((scr.poke ebx 0x20).poke (ebx + 1) 0x07)

/-- `.roll_screen`: the lines 1 to 24 go to the lines 0 to 23, the last line becomes blank. -/
def rollScreen (scr : Screen) : Screen := cls 80 3840 (repMovsd 960 160 0 scr)

/-- `.is_carriage_return`, and `.is_line_feed` at the same place. -/
def lineFeed (scr : Screen) (bx : UInt16) : Screen :=
  let dx := bx % 80
  let bx := bx - dx
  let bx := bx + 80
  if below2000 bx then scr.setCursor bx else scr.rollScreen.setCursor 1920

/-- `.is_backspace` -/
def backspace (scr : Screen) (bx : UInt16) : Except Fault Screen := do
  let bx := bx - 1
  let bx := bx <<< 1
  let scr ← scr.store bx 0x20
  let bx := bx + 1
  let scr ← scr.store bx 0x07
  .ok (scr.setCursor (bx >>> 1))

/-- `.put_other` -/
def putOther (scr : Screen) (bx : UInt16) (c attr : UInt8) : Except Fault Screen := do
  let bx := bx <<< 1
  let scr ← scr.store bx c
  let bx := bx + 1
  let scr ← scr.store bx attr
  let bx := bx >>> 1
  let bx := bx + 1
  .ok (if below2000 bx then scr.setCursor bx else scr.lineFeed bx)

/-- `put_char` -/
def putChar (scr : Screen) (c attr : UInt8) : Except Fault Screen :=
  let bx := scr.cursor
  if c = 0x0d ∨ c = 0x0a then .ok (scr.lineFeed bx)
  else if c = 0x08 then scr.backspace bx
  else scr.putOther bx c attr

/-- `put_str`, on the bytes from its address on. -/
def putStr (attr : UInt8) : List UInt8 → Screen → Except Fault Screen
  | [], scr => .ok scr
  | c :: s, scr => if c = 0 then .ok scr else scr.putChar c attr >>= putStr attr s

/-! ## `write_in_pos` -/

/-- `put_char_pos` -/
def putCharPos (scr : Screen) (c attr : UInt8) (pos : UInt16) : Except Fault Screen := do
  let bx := pos <<< 1
  let scr ← scr.store bx c
  scr.store (bx + 1) attr

/-- The loop of `console_put_str_in_pos`, over the characters that `strlen` counts. -/
def putStrPos (attr : UInt8) : List UInt8 → UInt32 → Screen → Except Fault Screen
  | [], _, scr => .ok scr
  | c :: s, pos, scr => scr.putCharPos c attr pos.toUInt16 >>= putStrPos attr s (pos + 1)

/-- The string at an address: the bytes before the first zero. -/
def cString (s : List UInt8) : List UInt8 := s.takeWhile (· ≠ 0)

/-- `console_put_str_in_pos`. The lock is left out. -/
def consolePutStrInPos (scr : Screen) (s : List UInt8) (attr posX posY : UInt8) :
    Except Fault Screen :=
  let pos := posX.toUInt32
  let pos := pos * 80 + posY.toUInt32
  putStrPos attr (cString s) pos scr

/-- `sys_write_in_pos` -/
def sysWriteInPos (scr : Screen) (s : List UInt8) (attr pos : UInt32) : Except Fault Screen :=
  scr.consolePutStrInPos s attr.toUInt8 (pos / 80).toUInt8 (pos % 80).toUInt8

end Screen

/-- A call of the console. -/
inductive ConsoleCall where
  | putChar (c attr : UInt8)
  | putStr (s : List UInt8) (attr : UInt8)
  | sysWriteInPos (s : List UInt8) (attr pos : UInt32)

def ConsoleCall.run (scr : Screen) : ConsoleCall → Except Fault Screen
  | .putChar c attr => scr.putChar c attr
  | .putStr s attr => Screen.putStr attr s scr
  | .sysWriteInPos s attr pos => scr.sysWriteInPos s attr pos

/-! ## Cells -/

/-- The start of the next line; the last line is its own next one, as the screen rolls. -/
def nextLine (cell : Nat) : Nat :=
  if cell - cell % 80 + 80 < 2000 then cell - cell % 80 + 80 else 1920

/-- Where the cursor goes with a character. -/
def nextCell (cell : Nat) (c : UInt8) : Nat :=
  if c = 0x0d ∨ c = 0x0a then nextLine cell
  else if c = 0x08 then cell - 1
  else if cell + 1 < 2000 then cell + 1 else nextLine (cell + 1)

theorem nextLine_lt (cell : Nat) : nextLine cell < 2000 := by
  unfold nextLine
  split <;> omega

/-- No backspace comes in the first cell. -/
def StrInside : Nat → List UInt8 → Prop
  | _, [] => True
  | cell, c :: s => c = 0 ∨ (¬ (c = 0x08 ∧ cell = 0) ∧ StrInside (nextCell cell c) s)

/-- Where the cursor is after a string. -/
def strCell : Nat → List UInt8 → Nat
  | cell, [] => cell
  | cell, c :: s => if c = 0 then cell else strCell (nextCell cell c) s

/-- The cell in which `write_in_pos` starts. The line is passed on in one byte. -/
def startCell (pos : UInt32) : Nat := pos.toNat / 80 % 256 * 80 + pos.toNat % 80

namespace ConsoleCall

/-- With the cursor in `cell`, the call stays on the screen: no backspace comes in the first
cell, and a positioned string ends with the screen. -/
def Inside (cell : Nat) : ConsoleCall → Prop
  | putChar c _ => ¬ (c = 0x08 ∧ cell = 0)
  | putStr s _ => StrInside cell s
  | sysWriteInPos s _ pos =>
    Screen.cString s = [] ∨ startCell pos + (Screen.cString s).length ≤ 2000

/-- Where the cursor is after the call. -/
def cellAfter (cell : Nat) : ConsoleCall → Nat
  | putChar c _ => nextCell cell c
  | putStr s _ => strCell cell s
  | sysWriteInPos _ _ _ => cell

/-- Every call of the sequence stays on the screen. -/
def AllInside : Nat → List ConsoleCall → Prop
  | _, [] => True
  | cell, call :: calls => call.Inside cell ∧ AllInside (call.cellAfter cell) calls

end ConsoleCall

namespace Screen

/-- The cursor is on the screen, and so is every byte stored so far. -/
structure OnScreen (scr : Screen) : Prop where
  cursor : scr.cursor.toNat < 2000
  stores : ∀ off ∈ scr.stores, off < 4000

/-- Each call returns, with the screen in order before and after it. -/
def Stays : Screen → List ConsoleCall → Prop
  | scr, [] => scr.OnScreen
  | scr, call :: calls => scr.OnScreen ∧ ∃ scr', call.run scr = .ok scr' ∧ Stays scr' calls

/-! ## Register arithmetic -/

theorem cursor_setCursor (scr : Screen) (bx : UInt16) : (scr.setCursor bx).cursor = bx := by
  have hlt := bx.toNat_lt
  apply UInt16.toNat_inj.mp
  rw [cursor, setCursor, UInt16.toNat_ofNat', UInt8.toNat_ofNat', UInt8.toNat_ofNat']
  omega

@[simp] theorem stores_setCursor (scr : Screen) (bx : UInt16) :
    (scr.setCursor bx).stores = scr.stores := rfl

@[simp] theorem stores_poke (scr : Screen) (off : Nat) (v : UInt8) :
    (scr.poke off v).stores = off :: scr.stores := rfl

theorem toNat_shl (bx : UInt16) : (bx <<< 1).toNat = 2 * bx.toNat % 65536 := by
  rw [UInt16.toNat_shiftLeft]
  show bx.toNat <<< 1 % 65536 = _
  rw [Nat.shiftLeft_eq]
  omega

theorem toNat_shr (bx : UInt16) : (bx >>> 1).toNat = bx.toNat / 2 := by
  rw [UInt16.toNat_shiftRight]
  show bx.toNat >>> 1 = _
  rw [Nat.shiftRight_eq_div_pow]

/-- For what the cursor can be after one step, the sign of the comparison does not matter. -/
theorem below2000_iff (bx : UInt16) (h : bx.toNat < 32768) :
    below2000 bx = true ↔ bx.toNat < 2000 := by
  have hint : bx.toBitVec.toInt = bx.toNat := BitVec.toInt_eq_toNat_of_lt (by
    show 2 * bx.toNat < 2 ^ 16
    omega)
  rw [below2000, BitVec.slt_eq_decide, hint, decide_eq_true_iff]
  show (bx.toNat : Int) < 2000 ↔ _
  omega

/-! ## Rolling -/

theorem repMovsd_stores {n esi edi off : Nat} {scr : Screen}
    (h : off ∈ (repMovsd n esi edi scr).stores) :
    off ∈ scr.stores ∨ (edi ≤ off ∧ off < edi + 4 * n) := by
  induction n generalizing esi edi scr with
  | zero => exact .inl h
  | succ n ih =>
    rcases ih h with hin | hin
    · simp only [stores_poke, List.mem_cons] at hin
      rcases hin with rfl | rfl | rfl | rfl | hin
      · exact .inr (by omega)
      · exact .inr (by omega)
      · exact .inr (by omega)
      · exact .inr (by omega)
      · exact .inl hin
    · exact .inr (by omega)

/-- One `movsd`. -/
theorem movsd_video {esi edi : Nat} {scr scr' : Screen} (h : edi + 4 ≤ esi)
    (hrun : ∀ n, repMovsd (n + 1) esi edi scr = repMovsd n (esi + 4) (edi + 4) scr') (off : Nat) :
    scr'.video off =
      if edi ≤ off ∧ off < edi + 4 then scr.video (off - edi + esi) else scr.video off := by
  obtain rfl := hrun 0
  simp only [repMovsd, poke]
  simp only [Function.update_apply]
  by_cases h3 : off = edi + 3
  · subst h3
    rw [if_pos rfl, if_neg (by omega), if_neg (by omega), if_neg (by omega), if_pos (by omega)]
    congr 1
    omega
  · rw [if_neg h3]
    by_cases h2 : off = edi + 2
    · subst h2
      rw [if_pos rfl, if_neg (by omega), if_neg (by omega), if_pos (by omega)]
      congr 1
      omega
    · rw [if_neg h2]
      by_cases h1 : off = edi + 1
      · subst h1
        rw [if_pos rfl, if_neg (by omega), if_pos (by omega)]
        congr 1
        omega
      · rw [if_neg h1]
        by_cases h0 : off = edi
        · subst h0
          rw [if_pos rfl, if_pos (by omega)]
          congr 1
          omega
        · rw [if_neg h0, if_neg (by omega)]

/-- A copy to lower addresses, word after word, reads nothing that it has overwritten. -/
theorem repMovsd_video {n esi edi : Nat} {scr : Screen} (h : edi + 4 ≤ esi) (off : Nat) :
    (repMovsd n esi edi scr).video off =
      if edi ≤ off ∧ off < edi + 4 * n then scr.video (off - edi + esi) else scr.video off := by
  induction n generalizing esi edi scr with
  | zero =>
    have hnot : ¬ (edi ≤ off ∧ off < edi + 4 * 0) := by omega
    rw [if_neg hnot]
    rfl
  | succ n ih =>
    have hword := @movsd_video esi edi scr _ h fun _ => rfl
    rw [repMovsd, ih (by omega)]
    by_cases hin : edi + 4 ≤ off ∧ off < edi + 4 + 4 * n
    · rw [if_pos hin, if_pos (by omega), hword, if_neg (by omega)]
      congr 1
      omega
    · rw [if_neg hin, hword]
      by_cases hfirst : edi ≤ off ∧ off < edi + 4
      · rw [if_pos hfirst, if_pos (by omega)]
      · rw [if_neg hfirst, if_neg (by omega)]

theorem cls_stores {n ebx off : Nat} {scr : Screen} (h : off ∈ (cls n ebx scr).stores) :
    off ∈ scr.stores ∨ (ebx ≤ off ∧ off < ebx + 2 * n) := by
  induction n generalizing ebx scr with
  | zero => exact .inl h
  | succ n ih =>
    rcases ih h with hin | hin
    · simp only [stores_poke, List.mem_cons] at hin
      rcases hin with rfl | rfl | hin
      · exact .inr (by omega)
      · exact .inr (by omega)
      · exact .inl hin
    · exact .inr (by omega)

theorem cls_video (n ebx : Nat) (scr : Screen) (off : Nat) :
    (cls n ebx scr).video off = if ebx ≤ off ∧ off < ebx + 2 * n then
      (if (off - ebx) % 2 = 0 then 0x20 else 0x07) else scr.video off := by
  induction n generalizing ebx scr with
  | zero =>
    have hnot : ¬ (ebx ≤ off ∧ off < ebx + 2 * 0) := by omega
    rw [if_neg hnot]
    rfl
  | succ n ih =>
    rw [cls, ih]
    simp only [poke, Function.update_apply]
    by_cases hin : ebx + 2 ≤ off ∧ off < ebx + 2 + 2 * n
    · have hpar : (off - (ebx + 2)) % 2 = (off - ebx) % 2 := by omega
      have hin' : ebx ≤ off ∧ off < ebx + 2 * (n + 1) := by omega
      rw [if_pos hin, if_pos hin', hpar]
    · rw [if_neg hin]
      by_cases h1 : off = ebx + 1
      · subst h1
        rw [if_pos rfl, if_pos (by omega), if_neg (by omega)]
      · rw [if_neg h1]
        by_cases h0 : off = ebx
        · subst h0
          rw [if_pos rfl, if_pos (by omega), if_pos (by omega)]
        · rw [if_neg h0, if_neg (by omega)]

/-- **The screen rolls by one line.** -/
theorem rollScreen_video (scr : Screen) (off : Nat) :
    scr.rollScreen.video off = if off < 3840 then scr.video (off + 160)
      else if off < 4000 then (if off % 2 = 0 then 0x20 else 0x07) else scr.video off := by
  rw [rollScreen, cls_video]
  by_cases hlast : 3840 ≤ off ∧ off < 3840 + 2 * 80
  · have hpar : (off - 3840) % 2 = off % 2 := by omega
    have hrow : ¬ off < 3840 ∧ off < 4000 := by omega
    rw [if_pos hlast, if_neg hrow.1, if_pos hrow.2, hpar]
  · rw [if_neg hlast, repMovsd_video (by omega)]
    by_cases hrest : off < 3840
    · rw [if_pos hrest, if_pos (by omega)]
      rfl
    · rw [if_neg hrest, if_neg (by omega), if_neg (by omega)]

/-- Rolling stores to the screen only. -/
theorem rollScreen_stores {scr : Screen} {off : Nat} (h : off ∈ scr.rollScreen.stores) :
    off ∈ scr.stores ∨ off < 4000 := by
  rcases cls_stores h with hin | hin
  · rcases repMovsd_stores hin with hin | hin
    · exact .inl hin
    · exact .inr (by omega)
  · exact .inr (by omega)

/-! ## One character -/

/-- The line feed on a position that is on the screen or just behind it. -/
theorem lineFeed_spec (scr : Screen) (bx : UInt16) (h : bx.toNat ≤ 2000) :
    (scr.lineFeed bx).cursor.toNat = nextLine bx.toNat ∧
      ∀ off ∈ (scr.lineFeed bx).stores, off ∈ scr.stores ∨ off < 4000 := by
  have hmod : (bx % 80).toNat = bx.toNat % 80 := UInt16.toNat_mod bx 80
  have hsub : (bx - bx % 80).toNat = bx.toNat - bx.toNat % 80 := by
    rw [UInt16.toNat_sub_of_le _ _ (UInt16.le_iff_toNat_le.mpr (by rw [hmod]; omega)), hmod]
  have hnext : (bx - bx % 80 + 80).toNat = bx.toNat - bx.toNat % 80 + 80 := by
    rw [UInt16.toNat_add, hsub]
    show (bx.toNat - bx.toNat % 80 + 80) % 65536 = _
    omega
  unfold lineFeed nextLine
  simp only [below2000_iff (bx - bx % 80 + 80) (by omega), hnext]
  by_cases hlt : bx.toNat - bx.toNat % 80 + 80 < 2000
  · rw [if_pos hlt, if_pos hlt, cursor_setCursor, hnext]
    exact ⟨rfl, fun off hoff => .inl hoff⟩
  · rw [if_neg hlt, if_neg hlt, cursor_setCursor]
    exact ⟨rfl, fun off hoff => rollScreen_stores hoff⟩

/-- Two byte stores into one cell of the segment. -/
theorem store_cell (scr : Screen) (bx : UInt16) (h : bx.toNat < 16384) (c attr : UInt8) :
    ∃ scr', (scr.store (bx <<< 1) c >>= fun scr => scr.store (bx <<< 1 + 1) attr) = .ok scr' ∧
      scr'.cursor = scr.cursor ∧
      scr'.stores = (2 * bx.toNat + 1) :: (2 * bx.toNat) :: scr.stores := by
  have hshl : (bx <<< 1).toNat = 2 * bx.toNat := by
    rw [toNat_shl]
    omega
  have hinc : (bx <<< 1 + 1).toNat = 2 * bx.toNat + 1 := by
    rw [UInt16.toNat_add, hshl]
    show (2 * bx.toNat + 1) % 65536 = _
    omega
  refine ⟨(scr.poke (2 * bx.toNat) c).poke (2 * bx.toNat + 1) attr, ?_, rfl, rfl⟩
  rw [store, hshl, if_pos (by unfold videoLimit; omega)]
  show store _ _ _ = _
  rw [store, hinc, if_pos (by unfold videoLimit; omega)]

/-- Halving the offset of the second byte gives the cell back. -/
theorem cell_of_offset {bx : UInt16} (h : bx.toNat < 16384) : (bx <<< 1 + 1) >>> 1 = bx := by
  apply UInt16.toNat_inj.mp
  rw [toNat_shr, UInt16.toNat_add, toNat_shl]
  show (2 * bx.toNat % 65536 + 1) % 65536 / 2 = _
  omega

theorem OnScreen.of_stores {scr scr' : Screen} (h : scr.OnScreen) (hcur : scr'.cursor.toNat < 2000)
    (hstores : ∀ off ∈ scr'.stores, off ∈ scr.stores ∨ off < 4000) : scr'.OnScreen :=
  ⟨hcur, fun off hoff => (hstores off hoff).elim (h.stores off) id⟩

/-- **One character.** The cursor follows `nextCell`. -/
theorem putChar_ok {scr : Screen} {c : UInt8} (attr : UInt8) (h : scr.OnScreen)
    (hin : ¬ (c = 0x08 ∧ scr.cursor.toNat = 0)) :
    ∃ scr', scr.putChar c attr = .ok scr' ∧ scr'.OnScreen ∧
      scr'.cursor.toNat = nextCell scr.cursor.toNat c := by
  have hcur := h.cursor
  unfold putChar nextCell
  by_cases hline : c = 0x0d ∨ c = 0x0a
  · rw [if_pos hline, if_pos hline]
    obtain ⟨hnext, hst⟩ := lineFeed_spec scr scr.cursor (by omega)
    refine ⟨_, rfl, h.of_stores ?_ hst, hnext⟩
    rw [hnext]
    exact nextLine_lt _
  · rw [if_neg hline, if_neg hline]
    by_cases hback : c = 0x08
    · -- the cell before the cursor becomes blank
      rw [if_pos hback, if_pos hback]
      have hpos : scr.cursor.toNat ≠ 0 := fun h0 => hin ⟨hback, h0⟩
      have hdec : (scr.cursor - 1).toNat = scr.cursor.toNat - 1 := by
        rw [UInt16.toNat_sub_of_le _ _ (UInt16.le_iff_toNat_le.mpr ?_)]
        · rfl
        · show 1 ≤ _
          omega
      obtain ⟨scr', hrun, hc', hst⟩ := store_cell scr (scr.cursor - 1) (by omega) 0x20 0x07
      obtain ⟨scr1, h1, h2⟩ := bind_eq_ok.mp hrun
      refine ⟨scr'.setCursor (scr.cursor - 1), ?_, h.of_stores ?_ ?_, ?_⟩
      · rw [backspace]
        refine bind_eq_ok.mpr ⟨scr1, h1, bind_eq_ok.mpr ⟨scr', h2, ?_⟩⟩
        rw [cell_of_offset (by omega)]
      · rw [cursor_setCursor, hdec]
        omega
      · intro off hoff
        rw [stores_setCursor, hst] at hoff
        rcases List.mem_cons.mp hoff with rfl | hoff
        · exact .inr (by omega)
        · rcases List.mem_cons.mp hoff with rfl | hoff
          · exact .inr (by omega)
          · exact .inl hoff
      · rw [cursor_setCursor, hdec]
    · rw [if_neg hback, if_neg hback]
      have hinc : (scr.cursor + 1).toNat = scr.cursor.toNat + 1 := by
        rw [UInt16.toNat_add]
        show (scr.cursor.toNat + 1) % 65536 = _
        omega
      obtain ⟨scr', hrun, -, hst⟩ := store_cell scr scr.cursor (by omega) c attr
      obtain ⟨scr1, h1, h2⟩ := bind_eq_ok.mp hrun
      have hstores : ∀ off ∈ scr'.stores, off ∈ scr.stores ∨ off < 4000 := by
        intro off hoff
        rw [hst] at hoff
        rcases List.mem_cons.mp hoff with rfl | hoff
        · exact .inr (by omega)
        · rcases List.mem_cons.mp hoff with rfl | hoff
          · exact .inr (by omega)
          · exact .inl hoff
      have hpath : scr.putOther scr.cursor c attr =
          .ok (if below2000 (scr.cursor + 1) then scr'.setCursor (scr.cursor + 1)
            else scr'.lineFeed (scr.cursor + 1)) := by
        rw [putOther]
        refine bind_eq_ok.mpr ⟨scr1, h1, bind_eq_ok.mpr ⟨scr', h2, ?_⟩⟩
        rw [cell_of_offset (by omega)]
      simp only [hpath, below2000_iff (scr.cursor + 1) (by omega), hinc]
      by_cases hlt : scr.cursor.toNat + 1 < 2000
      · rw [if_pos hlt, if_pos hlt]
        refine ⟨_, rfl, h.of_stores ?_ hstores, ?_⟩
        · rw [cursor_setCursor, hinc]
          exact hlt
        · rw [cursor_setCursor, hinc]
      · -- the last cell: the screen rolls
        rw [if_neg hlt, if_neg hlt]
        obtain ⟨hnext, hroll⟩ := lineFeed_spec scr' (scr.cursor + 1) (by omega)
        rw [hinc] at hnext
        refine ⟨_, rfl, h.of_stores ?_ ?_, hnext⟩
        · rw [hnext]
          exact nextLine_lt _
        · intro off hoff
          exact (hroll off hoff).elim (hstores off) .inr

/-- The offset of the cell before the first one is behind the limit of the segment. -/
theorem putChar_backspace_first {scr : Screen} (h : scr.cursor.toNat = 0) (attr : UInt8) :
    scr.putChar 0x08 attr = .error .outOfBounds := by
  have hzero : scr.cursor = 0 := UInt16.toNat_inj.mp h
  have hbehind : ¬ (((0 : UInt16) - 1) <<< 1).toNat ≤ videoLimit := by decide
  show scr.backspace scr.cursor = _
  rw [backspace, hzero, store, if_neg hbehind]
  rfl

/-- **A string**, character by character. -/
theorem putStr_ok (attr : UInt8) (s : List UInt8) {scr : Screen} (h : scr.OnScreen) :
    (∃ scr', putStr attr s scr = .ok scr' ∧ scr'.OnScreen ∧
        scr'.cursor.toNat = strCell scr.cursor.toNat s) ∧ StrInside scr.cursor.toNat s ∨
      (∃ e, putStr attr s scr = .error e) ∧ ¬ StrInside scr.cursor.toNat s := by
  induction s generalizing scr with
  | nil => exact .inl ⟨⟨scr, rfl, h, rfl⟩, trivial⟩
  | cons c s ih =>
    by_cases hend : c = 0
    · refine .inl ⟨⟨scr, ?_, h, ?_⟩, .inl hend⟩
      · rw [putStr, if_pos hend]
      · rw [strCell, if_pos hend]
    · rw [putStr, if_neg hend, strCell, if_neg hend, StrInside]
      by_cases hin : c = 0x08 ∧ scr.cursor.toNat = 0
      · refine .inr ⟨⟨.outOfBounds, ?_⟩, fun hs => hs.elim hend fun hs => hs.1 hin⟩
        rw [hin.1, putChar_backspace_first hin.2]
        rfl
      · obtain ⟨scr1, hrun, h1, hcell⟩ := putChar_ok attr h hin
        rw [hrun, ← hcell]
        rcases ih h1 with ⟨hok, hs⟩ | ⟨herr, hs⟩
        · exact .inl ⟨hok, .inr ⟨hin, hs⟩⟩
        · exact .inr ⟨herr, fun hs' => hs'.elim hend fun hs' => hs hs'.2⟩

/-! ## Positioned strings -/

theorem store_kept {scr : Screen} {bx : UInt16} {v : UInt8} :
    Returns (scr.store bx v) fun scr' => scr'.stores = bx.toNat :: scr.stores := by
  unfold store
  split
  · exact .ok rfl
  · exact .error _

/-- A byte once stored stays in the list of stores. -/
theorem putStrPos_kept (attr : UInt8) (s : List UInt8) (pos : UInt32) (scr : Screen) :
    Returns (putStrPos attr s pos scr) fun scr' => ∀ off ∈ scr.stores, off ∈ scr'.stores := by
  induction s generalizing pos scr with
  | nil => exact .ok fun off hoff => hoff
  | cons c s ih =>
    rw [putStrPos]
    refine .bind (P := fun scr1 => ∀ off ∈ scr.stores, off ∈ scr1.stores) ?_ ?_
    · rw [putCharPos]
      refine .bind store_kept fun scr1 h1 => store_kept.mono fun scr2 h2 off hoff => ?_
      rw [h2, h1]
      exact List.mem_cons_of_mem _ (List.mem_cons_of_mem _ hoff)
    · exact fun scr1 h1 => (ih (pos + 1) scr1).mono fun scr' h' off hoff => h' off (h1 off hoff)

theorem toUInt16_toNat (pos : UInt32) (h : pos.toNat < 65536) : pos.toUInt16.toNat = pos.toNat := by
  rw [UInt32.toNat_toUInt16]
  omega

theorem succ_toNat (pos : UInt32) (h : pos.toNat < 65536) : (pos + 1).toNat = pos.toNat + 1 := by
  rw [UInt32.toNat_add]
  show (pos.toNat + 1) % 2 ^ 32 = _
  omega

/-- A string that ends with the screen. -/
theorem putStrPos_ok (attr : UInt8) {s : List UInt8} {pos : UInt32} {scr : Screen}
    (h : scr.OnScreen) (hend : s = [] ∨ pos.toNat + s.length ≤ 2000) :
    ∃ scr', putStrPos attr s pos scr = .ok scr' ∧ scr'.OnScreen ∧ scr'.cursor = scr.cursor := by
  induction s generalizing pos scr with
  | nil => exact ⟨scr, rfl, h, rfl⟩
  | cons c s ih =>
    have hlen : pos.toNat + (s.length + 1) ≤ 2000 := hend.resolve_left (List.cons_ne_nil _ _)
    have h16 := toUInt16_toNat pos (by omega)
    obtain ⟨scr1, hrun, hcur, hst⟩ := store_cell scr pos.toUInt16 (by omega) c attr
    have h1 : scr1.OnScreen := by
      refine h.of_stores (by rw [hcur]; exact h.cursor) fun off hoff => ?_
      rw [hst, h16] at hoff
      rcases List.mem_cons.mp hoff with rfl | hoff
      · exact .inr (by omega)
      · rcases List.mem_cons.mp hoff with rfl | hoff
        · exact .inr (by omega)
        · exact .inl hoff
    have hnext := succ_toNat pos (by omega)
    have hend' : s = [] ∨ (pos + 1).toNat + s.length ≤ 2000 := .inr (by omega)
    obtain ⟨scr', hrest, h', hcur'⟩ := ih h1 hend'
    exact ⟨scr', bind_eq_ok.mpr ⟨scr1, hrun, hrest⟩, h', hcur'.trans hcur⟩

/-- A string that starts on a line below 256 and does not end with the screen is stored behind
it, unless it is stopped. -/
theorem putStrPos_strays {attr : UInt8} {s : List UInt8} {pos : UInt32} {scr : Screen}
    (hne : s ≠ []) (hpos : pos.toNat < 32768) (hlen : 2000 < pos.toNat + s.length) :
    Returns (putStrPos attr s pos scr) fun scr' => ∃ off ∈ scr'.stores, 4000 ≤ off := by
  induction s generalizing pos scr with
  | nil => exact absurd rfl hne
  | cons c s ih =>
    have h16 := toUInt16_toNat pos (by omega)
    rw [putStrPos]
    by_cases hscreen : pos.toNat < 2000
    · -- still on the screen: there must be more characters
      have hnext := succ_toNat pos (by omega)
      have hs : s ≠ [] := by
        rintro rfl
        simp only [List.length_cons, List.length_nil] at hlen
        omega
      simp only [List.length_cons] at hlen
      exact .bind .any fun scr1 _ => ih hs (by omega) (by omega)
    · refine .bind (P := fun scr1 => 2 * pos.toNat ∈ scr1.stores) ?_ fun scr1 h1 => ?_
      · rw [putCharPos]
        refine .bind store_kept fun scr1 h1 => store_kept.mono fun scr2 h2 => ?_
        have hoff : (pos.toUInt16 <<< 1).toNat = 2 * pos.toNat := by
          rw [toNat_shl, h16]
          omega
        rw [h2, h1, hoff]
        exact List.mem_cons_of_mem _ (List.mem_cons_self ..)
      · refine (putStrPos_kept attr s (pos + 1) scr1).mono fun scr' h' => ?_
        exact ⟨_, h' _ h1, by omega⟩

/-- The position as it reaches the loop. -/
theorem sysWriteInPos_eq (scr : Screen) (s : List UInt8) (attr pos : UInt32) :
    ∃ pos' : UInt32, pos'.toNat = startCell pos ∧
      scr.sysWriteInPos s attr pos = putStrPos attr.toUInt8 (cString s) pos' scr := by
  refine ⟨(pos / 80).toUInt8.toUInt32 * 80 + (pos % 80).toUInt8.toUInt32, ?_, rfl⟩
  have hdiv : (pos / 80).toNat = pos.toNat / 80 := UInt32.toNat_div pos 80
  have hmod : (pos % 80).toNat = pos.toNat % 80 := UInt32.toNat_mod pos 80
  rw [UInt32.toNat_add, UInt32.toNat_mul, UInt8.toNat_toUInt32, UInt8.toNat_toUInt32,
    UInt32.toNat_toUInt8, UInt32.toNat_toUInt8, hdiv, hmod, startCell]
  show (pos.toNat / 80 % 2 ^ 8 * 80 % 2 ^ 32 + pos.toNat % 80 % 2 ^ 8) % 2 ^ 32 = _
  omega

/-! ## Calls -/

/-- One call: it returns with the screen in order exactly when it stays inside. -/
theorem call_iff {scr : Screen} (h : scr.OnScreen) (call : ConsoleCall) :
    call.Inside scr.cursor.toNat ↔ ∃ scr', call.run scr = .ok scr' ∧ scr'.OnScreen := by
  cases call with
  | putChar c attr =>
    constructor
    · intro hin
      obtain ⟨scr', hrun, h', -⟩ := putChar_ok attr h hin
      exact ⟨scr', hrun, h'⟩
    · rintro ⟨scr', hrun, -⟩ ⟨rfl, hzero⟩
      have hfault := putChar_backspace_first hzero attr
      cases hfault.symm.trans hrun
  | putStr s attr =>
    rcases putStr_ok attr s h with ⟨⟨scr', hrun, h', -⟩, hin⟩ | ⟨⟨e, herr⟩, hout⟩
    · exact ⟨fun _ => ⟨scr', hrun, h'⟩, fun _ => hin⟩
    · refine ⟨fun hin => absurd hin hout, ?_⟩
      rintro ⟨scr', hrun, -⟩
      cases herr.symm.trans hrun
  | sysWriteInPos s attr pos =>
    obtain ⟨pos', hpos, heq⟩ := sysWriteInPos_eq scr s attr pos
    rw [ConsoleCall.Inside, ConsoleCall.run, heq, ← hpos]
    constructor
    · intro hin
      obtain ⟨scr', hrun, h', -⟩ := putStrPos_ok attr.toUInt8 h hin
      exact ⟨scr', hrun, h'⟩
    · rintro ⟨scr', hrun, h'⟩
      by_contra hout
      obtain ⟨hne, hlong⟩ := not_or.mp hout
      have hlt : pos'.toNat < 32768 := by
        rw [hpos, startCell]
        omega
      obtain ⟨off, hoff, hfar⟩ := putStrPos_strays hne hlt (by omega) scr' hrun
      have := h'.stores off hoff
      omega

/-- Where the cursor is after the call. -/
theorem call_cell {scr scr' : Screen} (h : scr.OnScreen) {call : ConsoleCall}
    (hin : call.Inside scr.cursor.toNat) (hrun : call.run scr = .ok scr') :
    scr'.cursor.toNat = call.cellAfter scr.cursor.toNat := by
  cases call with
  | putChar c attr =>
    obtain ⟨scr1, hrun1, -, hcell⟩ := putChar_ok attr h hin
    cases hrun1.symm.trans hrun
    exact hcell
  | putStr s attr =>
    rcases putStr_ok attr s h with ⟨⟨scr1, hrun1, -, hcell⟩, -⟩ | ⟨-, hout⟩
    · cases hrun1.symm.trans hrun
      exact hcell
    · exact absurd hin hout
  | sysWriteInPos s attr pos =>
    obtain ⟨pos', hpos, heq⟩ := sysWriteInPos_eq scr s attr pos
    rw [ConsoleCall.Inside, ← hpos] at hin
    obtain ⟨scr1, hrun1, -, hcell⟩ := putStrPos_ok attr.toUInt8 h hin
    cases (heq.trans hrun1).symm.trans hrun
    exact congrArg UInt16.toNat hcell

/-- **Which calls stay on the screen.** From a cursor on the screen, each call of a sequence
returns and leaves the cursor and every store on the screen exactly when no backspace comes in
the first cell and no positioned string reaches behind the last one. -/
theorem console_stays_iff {scr : Screen} (h : scr.OnScreen) (calls : List ConsoleCall) :
    Stays scr calls ↔ ConsoleCall.AllInside scr.cursor.toNat calls := by
  induction calls generalizing scr with
  | nil => exact ⟨fun _ => trivial, fun _ => h⟩
  | cons call calls ih =>
    have hone := call_iff h call
    constructor
    · rintro ⟨-, scr', hrun, hrest⟩
      have h' : scr'.OnScreen := by
        cases calls with
        | nil => exact hrest
        | cons _ _ => exact hrest.1
      have hin := hone.mpr ⟨scr', hrun, h'⟩
      refine ⟨hin, ?_⟩
      rw [← call_cell h hin hrun]
      exact (ih h').mp hrest
    · rintro ⟨hin, hrest⟩
      obtain ⟨scr', hrun, h'⟩ := hone.mp hin
      refine ⟨h, scr', hrun, (ih h').mpr ?_⟩
      rw [call_cell h hin hrun]
      exact hrest

end Screen

/-- The screen after the first clearing: blank, with the cursor in the first cell. -/
def blankScreen : Screen := ⟨0, 0, fun off => if off % 2 = 0 then 0x20 else 0x07, []⟩

theorem blankScreen_onScreen : blankScreen.OnScreen := ⟨by decide, nofun⟩

/-- `AB`, a backspace, a new line, and a positioned string in the last two cells. -/
theorem console_stays_sample : blankScreen.Stays [.putStr [0x41, 0x42, 0x08, 0x0a] 0x07,
    .putChar 0x43 0x07, .sysWriteInPos [0x44, 0x45] 0x0b 1998] :=
  (Screen.console_stays_iff blankScreen_onScreen _).mpr (by
    refine ⟨?_, ?_, ?_, trivial⟩
    · exact .inr ⟨by decide, .inr ⟨by decide, .inr ⟨by decide, .inr ⟨by decide, trivial⟩⟩⟩⟩
    · rintro ⟨hback, -⟩
      exact absurd hback (by decide)
    · exact .inr (by decide))

/-- `write_in_pos` with the cell behind the last one stores at offset 4000; a backspace in the
first cell does not return. -/
theorem console_strays : blankScreen.OnScreen ∧
    ¬ blankScreen.Stays [.sysWriteInPos [0x41] 0x07 2000] ∧
    ¬ blankScreen.Stays [.putChar 0x08 0x07] := by
  refine ⟨blankScreen_onScreen, ?_, ?_⟩
  · rintro ⟨-, scr', hrun, hon⟩
    have hcheck : returnsWith (blankScreen.sysWriteInPos [0x41] 0x07 2000)
        fun scr => scr.stores == [4001, 4000] := by decide
    obtain ⟨scr1, hrun1, hst⟩ := returnsWith_iff.mp hcheck
    cases hrun1.symm.trans hrun
    have hfar := hon.stores 4000 (by rw [beq_iff_eq.mp hst]; decide)
    omega
  · rintro ⟨-, scr', hrun, -⟩
    have hcheck : returnsWith (blankScreen.putChar 0x08 0x07) (fun _ => true) = false := by decide
    rw [show blankScreen.putChar 0x08 0x07 = .ok scr' from hrun] at hcheck
    cases hcheck

end GwOS
