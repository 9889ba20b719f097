import GwOS.Kernel.Debug
import Mathlib.Logic.Function.Basic
import Mathlib.Data.Nat.Basic

/-!
# Address translation

The processor translates a virtual address by a walk through two levels of tables in
physical memory: the entry of the page directory (`cr3`) at the upper ten bits of the
address names the page table, and the entry of the page table at the middle ten bits names
the frame. Both are words whose lowest bit says whether the entry is present and whose
upper twenty bits are a frame number.

Physical memory is a function from frames to words. All that the kernel writes into a
table is a word at an address that is a multiple of four, and it copies and clears whole
pages, so words are fine enough.

There is no TLB: every access walks through the tables as they are. A real processor may use an
entry that has been removed until it is invalidated, and the operand of the `invlpg` in
`page_table_pte_remove` is the local variable that holds the address, so that it invalidates the
page of the stack. What is said here about entries and bitmaps does not depend on that. What is
said about the contents that are found at an address holds when no removed entry is used.
-/

namespace GwOS

/-- A `uint32_t`, which is also a virtual or physical address. -/
abbrev Addr := BitVec 32

instance Addr.lawfulBEq : LawfulBEq Addr := inferInstance

/-- The number of a page frame. -/
abbrev Frame := BitVec 20

/-- What a frame holds: 1024 words. -/
abbrev Page := BitVec 10 → Addr

/-- Physical memory and the page directory that is active. -/
structure Machine where
  mem : Frame → Page
  cr3 : Frame

/-! ## The parts of an address and of an entry -/

/-- The index into the page directory. -/
def dirIdx (v : Addr) : BitVec 10 := v.extractLsb' 22 10

/-- The index into the page table. -/
def tabIdx (v : Addr) : BitVec 10 := v.extractLsb' 12 10

/-- The index of a word in its page. -/
def wordIdx (v : Addr) : BitVec 10 := v.extractLsb' 2 10

/-- The number of the page that an address is in, or of the frame if it is physical. -/
def pageOf (v : Addr) : BitVec 20 := v.extractLsb' 12 20

/-- The offset of an address in its page. -/
def offsetOf (v : Addr) : BitVec 12 := v.extractLsb' 0 12

/-- The address of a byte in a page. -/
def addrOf (p : BitVec 20) (o : BitVec 12) : Addr := p ++ o

/-- The bit `PG_P_1` of an entry. -/
def Present (entry : Addr) : Prop := entry.getLsbD 0 = true

instance (entry : Addr) : Decidable (Present entry) := inferInstanceAs (Decidable (_ = _))

theorem getLsbD_addrOf (p : BitVec 20) (o : BitVec 12) (i : Nat) :
    (addrOf p o).getLsbD i = if i < 12 then o.getLsbD i else p.getLsbD (i - 12) :=
  BitVec.getLsbD_append

theorem pageOf_addrOf (p : BitVec 20) (o : BitVec 12) : pageOf (addrOf p o) = p := by
  apply BitVec.eq_of_getLsbD_eq
  intro i hi
  rw [pageOf, BitVec.getLsbD_extractLsb', getLsbD_addrOf, if_neg (by omega)]
  simp [hi]

theorem offsetOf_addrOf (p : BitVec 20) (o : BitVec 12) : offsetOf (addrOf p o) = o := by
  apply BitVec.eq_of_getLsbD_eq
  intro i hi
  rw [offsetOf, BitVec.getLsbD_extractLsb', getLsbD_addrOf, if_pos (by omega)]
  simp [hi]

theorem addrOf_pageOf (v : Addr) : addrOf (pageOf v) (offsetOf v) = v := by
  apply BitVec.eq_of_getLsbD_eq
  intro i hi
  rw [getLsbD_addrOf]
  by_cases h : i < 12
  · simp [offsetOf, h]
  · have h' : i - 12 < 20 := by omega
    have h2 : 12 + (i - 12) = i := by omega
    simp [pageOf, h, h', h2]

theorem dirIdx_eq (v : Addr) : dirIdx v = (pageOf v).extractLsb' 10 10 := by
  apply BitVec.eq_of_getLsbD_eq
  intro i hi
  have h' : 10 + i < 20 := by omega
  have h2 : 12 + (10 + i) = 22 + i := by omega
  simp [pageOf, dirIdx, hi, h', h2]

theorem tabIdx_eq (v : Addr) : tabIdx v = (pageOf v).extractLsb' 0 10 := by
  apply BitVec.eq_of_getLsbD_eq
  intro i hi
  have h' : i < 20 := by omega
  simp [pageOf, tabIdx, hi, h']

/-- A page is given by its indices into the two tables. -/
theorem pageOf_inj {v w : Addr} (hd : dirIdx v = dirIdx w) (ht : tabIdx v = tabIdx w) :
    pageOf v = pageOf w := by
  apply BitVec.eq_of_getLsbD_eq
  intro i hi
  by_cases h : i < 10
  · have hbit := congrArg (fun x => BitVec.getLsbD x i) ht
    simpa [tabIdx, pageOf, h, hi] using hbit
  · have h' : i - 10 < 10 := by omega
    have h2 : 22 + (i - 10) = 12 + i := by omega
    have hbit := congrArg (fun x => BitVec.getLsbD x (i - 10)) hd
    simpa [dirIdx, pageOf, h', h2, hi] using hbit

/-! ## The walk -/

namespace Machine

/-- The entry of the page directory for an address. -/
def pde (s : Machine) (v : Addr) : Addr := s.mem s.cr3 (dirIdx v)

/-- The page table that the directory names for an address. -/
def tableOf (s : Machine) (v : Addr) : Frame := pageOf (s.pde v)

/-- The entry of the page table for an address. -/
def pte (s : Machine) (v : Addr) : Addr := s.mem (s.tableOf v) (tabIdx v)

/-- The frame of the page that `v` is in. -/
def walk (s : Machine) (v : Addr) : Option Frame :=
  if Present (s.pde v) ∧ Present (s.pte v) then some (pageOf (s.pte v)) else none

/-- The physical address. -/
def translate (s : Machine) (v : Addr) : Option Addr :=
  (s.walk v).map fun f => addrOf f (offsetOf v)

/-- Reads the word at `v`. -/
def load (s : Machine) (v : Addr) : Except Fault Addr :=
  match s.walk v with
  | none => .error .pageFault
  | some f => .ok (s.mem f (wordIdx v))

/-- Overwrites a frame. -/
def setFrame (s : Machine) (f : Frame) (page : Page) : Machine :=
  { s with mem := Function.update s.mem f page }

/-- Overwrites one word of a frame. -/
def setWord (s : Machine) (f : Frame) (i : BitVec 10) (w : Addr) : Machine :=
  s.setFrame f (Function.update (s.mem f) i w)

/-- Writes the word at `v`. -/
def store (s : Machine) (v w : Addr) : Except Fault Machine :=
  match s.walk v with
  | none => .error .pageFault
  | some f => .ok (s.setWord f (wordIdx v) w)

/-- `memset` of the page at `v` to zero. -/
def clearPage (s : Machine) (v : Addr) : Except Fault Machine :=
  match s.walk v with
  | none => .error .pageFault
  | some f => .ok (s.setFrame f fun _ => 0)

/-! ## Frames -/

@[simp] theorem setFrame_cr3 (s : Machine) (f : Frame) (page : Page) :
    (s.setFrame f page).cr3 = s.cr3 := rfl

@[simp] theorem setWord_cr3 (s : Machine) (f : Frame) (i : BitVec 10) (w : Addr) :
    (s.setWord f i w).cr3 = s.cr3 := rfl

theorem setFrame_mem_self (s : Machine) (f : Frame) (page : Page) :
    (s.setFrame f page).mem f = page := Function.update_self ..

theorem setFrame_mem_ne (s : Machine) {f g : Frame} (page : Page) (h : g ≠ f) :
    (s.setFrame f page).mem g = s.mem g := Function.update_of_ne h ..

theorem setWord_mem_self (s : Machine) (f : Frame) (i : BitVec 10) (w : Addr) :
    (s.setWord f i w).mem f i = w := by
  rw [setWord, setFrame_mem_self, Function.update_self]

theorem setWord_mem_ne (s : Machine) {f g : Frame} {i j : BitVec 10} (w : Addr)
    (h : g ≠ f ∨ j ≠ i) : (s.setWord f i w).mem g j = s.mem g j := by
  by_cases hg : g = f
  · subst hg
    have hj : j ≠ i := h.resolve_left fun hne => hne rfl
    rw [setWord, setFrame_mem_self, Function.update_of_ne hj]
  · rw [setWord, setFrame_mem_ne _ _ hg]

/-- The walk depends on the entries for the page only. -/
theorem walk_congr {s s' : Machine} {v v' : Addr} (hpde : s'.pde v' = s.pde v)
    (hpte : Present (s.pde v) → s'.pte v' = s.pte v) : s'.walk v' = s.walk v := by
  rw [walk, walk, hpde]
  by_cases hp : Present (s.pde v)
  · rw [hpte hp]
  · rw [if_neg fun h => hp h.1, if_neg fun h => hp h.1]

theorem walk_eq_of_pageOf (s : Machine) {v w : Addr} (h : pageOf v = pageOf w) :
    s.walk v = s.walk w := by
  have hd : dirIdx v = dirIdx w := by rw [dirIdx_eq, dirIdx_eq, h]
  have ht : tabIdx v = tabIdx w := by rw [tabIdx_eq, tabIdx_eq, h]
  rw [walk, walk, pte, pte, tableOf, tableOf, pde, pde, hd, ht]

end Machine

end GwOS
