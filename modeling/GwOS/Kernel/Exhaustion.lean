import GwOS.Kernel.Search

/-!
# Allocations that do not get their frames

`malloc_page` marks its virtual pages before it takes the first frame, `get_one_page` marks
its page before it takes the frame, and `page_table_add` does not look at what `palloc`
returns for a page table. Nothing is ever given back. `PageRequest.noTrace_iff` says which
requests leave no trace all the same when a frame is missing: those of `get_one_page` for a
page whose bit was set already.
-/

namespace GwOS

/-! ## Empty pools -/

/-- The search finds nothing in the pool. -/
def Pool.Empty (p : Pool) : Prop := bitmapApplyCnt p.poolBitmap 1 = .ok none

theorem palloc_eq_none {p p' : Pool} (h : palloc p = .ok (none, p')) : p.Empty ∧ p' = p := by
  unfold palloc at h
  obtain ⟨found, hfound, h⟩ := bind_eq_ok.mp h
  cases found with
  | none =>
    cases h
    exact ⟨hfound, rfl⟩
  | some idx =>
    obtain ⟨mp, -, h⟩ := bind_eq_ok.mp h
    cases h

theorem Pool.Empty.palloc {p : Pool} (h : p.Empty) : GwOS.palloc p = .ok (none, p) := by
  rw [Empty] at h
  rw [GwOS.palloc, h]
  rfl

/-! ## Requests -/

/-- A call of `malloc_page` or of `get_one_page`. -/
inductive PageRequest where
  | mallocPage (pf : PoolFlag) (cnt : Nat)
  | getOnePage (pf : PoolFlag) (vaddr : Addr)

namespace Memory

/-- The page table of `v` is not there, and there is no frame for one. -/
def TableMissing (s : Memory) (v : Addr) : Prop :=
  ∃ entry, s.load (pdePtr v) = .ok entry ∧ ¬ Present entry ∧ s.kernelPool.Empty

/-- A frame for the page `v` or for its page table is missing. -/
def FrameMissing (s : Memory) (pf : PoolFlag) (v : Addr) : Prop :=
  (s.pool pf).Empty ∨
    ∃ page p, palloc (s.pool pf) = .ok (some page, p) ∧ (s.setPool pf p).TableMissing v

/-- A frame is missing for one of the `cnt` pages from `v` on. -/
def FramesMissing (pf : PoolFlag) : (cnt : Nat) → Addr → Memory → Prop
  | 0, _, _ => False
  | cnt + 1, v, s => s.FrameMissing pf v ∨ ∃ page p s', palloc (s.pool pf) = .ok (some page, p) ∧
      pageTableAdd (s.setPool pf p) v page = .ok s' ∧ FramesMissing pf cnt (v + 0x1000) s'

/-- The branches of `get_one_page` that are allowed. -/
def MayGet (s : Memory) (pf : PoolFlag) (v : Addr) : Prop :=
  match (s.pcb s.running).pgDir, pf with
  | some _, .user => s.vaddrStart .user ≤ v
  | none, .kernel => s.vaddrStart .kernel < v
  | _, _ => False

end Memory

namespace PageRequest

/-- The pool and the bitmap of virtual pages that the request is about. -/
def pf : PageRequest → PoolFlag
  | mallocPage pf _ => pf
  | getOnePage pf _ => pf

def run (s : Memory) : PageRequest → Except Fault (Option Addr × Memory)
  | mallocPage pf cnt => GwOS.mallocPage s pf cnt
  | getOnePage pf v => GwOS.getOnePage s pf v

/-- The request comes to its frames and cannot obtain all of them. -/
def Missing (s : Memory) : PageRequest → Prop
  | mallocPage pf cnt => (0 < cnt ∧ cnt < 3840) ∧
      ∃ v s1, vaddrGet s pf cnt = .ok (some v, s1) ∧ Memory.FramesMissing pf cnt v s1
  | getOnePage pf v => s.MayGet pf v ∧ ∃ s1, markPage s pf v = .ok s1 ∧ s1.FrameMissing pf v

/-- `NULL`, with the pools, the bitmap of the virtual pages and all entries of all page
directories and page tables as before. -/
def NoTrace (s : Memory) (r : PageRequest) : Prop :=
  ∃ s', r.run s = .ok (none, s') ∧ s'.kernelPool.poolBitmap = s.kernelPool.poolBitmap ∧
    s'.userPool.poolBitmap = s.userPool.poolBitmap ∧ s'.vaddrBitmap r.pf = s.vaddrBitmap r.pf ∧
    ∀ d v, (s'.under d).pde v = (s.under d).pde v ∧ (s'.under d).pte v = (s.under d).pte v

/-- The frame of the page itself is missing, and the bit of the page is set. -/
def Unnoticed (s : Memory) : PageRequest → Prop
  | mallocPage _ _ => False
  | getOnePage pf v => (s.pool pf).Empty ∧
      (s.vaddrBitmap pf).bit (pageIdx v (s.vaddrStart pf)) = true

end PageRequest

/-! ## Bits -/

/-- A bit that is set already. -/
theorem bitmapSetIdx_self {mp : Bitmap} {idx : Nat} (h : mp.bit idx = true) :
    bitmapSetIdx mp idx 1 = .ok mp := by
  rw [Bitmap.bit] at h
  unfold bitmapSetIdx
  rw [if_pos (.inr rfl)]
  cases hb : mp.bits[idx / 8]? with
  | none =>
    rw [hb] at h
    cases h
  | some b =>
    rw [hb] at h
    change b.toBitVec.getLsbD (idx % 8) = true at h
    have hsame : b ||| bitMask idx = b := by
      apply UInt8.toBitVec_inj.mp
      apply BitVec.eq_of_getLsbD_eq
      intro i hi
      rw [UInt8.toBitVec_or, bitMask_toBitVec, BitVec.getLsbD_or, BitVec.getLsbD_twoPow]
      by_cases he : idx % 8 = i
      · rw [← he, h, Bool.true_or]
      · simp [he]
    obtain ⟨hlt, hget⟩ := List.getElem?_eq_some_iff.mp hb
    have hset : mp.bits.set (idx / 8) b = mp.bits := by
      rw [← hget]
      exact List.set_getElem_self hlt
    show Except.ok (⟨mp.bits.set (idx / 8) (b ||| bitMask idx)⟩ : Bitmap) = _
    rw [hsame, hset]

/-- The search answers the index of a bit that is zero. -/
theorem bitmapApplyFrom_zero (mp : Bitmap) (cnt n i : Nat) :
    Returns (bitmapApplyFrom mp cnt n i) fun r => ∀ j, r = some j → mp.bit j = false := by
  induction n generalizing i with
  | zero => exact .ok nofun
  | succ n ih =>
    rw [bitmapApplyFrom]
    rcases Nat.lt_or_ge i (8 * mp.len) with hlt | hge
    · rw [bitmapCheckIdx_ok hlt]
      cases hb : mp.bit i with
      | true => exact ih (i + 1)
      | false =>
        show Returns (bitmapFreeRun mp (cnt - 1) (i + 1) >>= _) _
        refine .bind .any fun f _ => ?_
        cases f with
        | true =>
          refine .ok fun j hj => ?_
          cases hj
          exact hb
        | false => exact ih (i + 1)
    · rw [bitmapCheckIdx_leaves hge]
      exact .error _

section Requests

variable {s s' s1 : Memory} {pf : PoolFlag} {cnt : Nat} {v : Addr}

theorem Memory.vaddrBitmap_set (s : Memory) (pf : PoolFlag) (mp : Bitmap) :
    (s.setVaddrBitmap pf mp).vaddrBitmap pf = mp := by
  cases pf with
  | kernel => rfl
  | user => exact Function.update_self ..

theorem Memory.setVaddrBitmap_self (s : Memory) (pf : PoolFlag) :
    s.setVaddrBitmap pf (s.vaddrBitmap pf) = s := by
  cases pf with
  | kernel => rfl
  | user =>
    show { s with btmp := Function.update s.btmp _ (s.btmp _) } = s
    rw [Function.update_eq_self]

/-- What `vaddr_get` returns was not marked before. -/
theorem vaddrGet_marks (hcnt : 0 < cnt) (h : vaddrGet s pf cnt = .ok (some v, s1)) :
    s1.vaddrBitmap pf ≠ s.vaddrBitmap pf := by
  unfold vaddrGet at h
  obtain ⟨found, hfound, h⟩ := bind_eq_ok.mp h
  cases found with
  | none => cases h
  | some idx =>
    obtain ⟨mp, hmp, h⟩ := bind_eq_ok.mp h
    obtain ⟨-, hbits⟩ := setBits_returns true cnt (s.vaddrBitmap pf) idx mp hmp
    have hzero := bitmapApplyFrom_zero (s.vaddrBitmap pf) cnt _ 0 _ hfound idx rfl
    dsimp only at h
    split at h
    · cases h
    · cases h
      rw [Memory.vaddrBitmap_set]
      intro he
      have hone := hbits idx
      rw [if_pos ⟨Nat.le_refl idx, by omega⟩, he, hzero] at hone
      cases hone

/-- `malloc_page` returns with the virtual pages marked, whatever happens to the frames. -/
theorem mallocPage_trace (hcnt : 0 < cnt) (hget : vaddrGet s pf cnt = .ok (some v, s1)) :
    Returns (mallocPage s pf cnt) fun r => r.2.vaddrBitmap pf ≠ s.vaddrBitmap pf := by
  intro r hr
  rcases mallocPage_cases s pf cnt r hr with ⟨h, -⟩ | ⟨w, s2, done, h, hloop, -⟩
  · cases hget.symm.trans h
  · cases hget.symm.trans h
    rw [(mallocLoop_same s1 pf cnt v _ hloop).vaddrBitmap]
    exact vaddrGet_marks hcnt hget

theorem getOnePage_eq (hmay : s.MayGet pf v) (hmark : markPage s pf v = .ok s1) :
    getOnePage s pf v = getOnePageNoBitmap s1 pf v := by
  unfold Memory.MayGet at hmay
  unfold getOnePage
  cases hdir : (s.pcb s.running).pgDir with
  | none =>
    rw [hdir] at hmay
    cases pf with
    | kernel =>
      simp only [if_pos hmay, hmark, bind, Except.bind]
    | user => exact absurd hmay id
  | some d =>
    rw [hdir] at hmay
    cases pf with
    | kernel => exact absurd hmay id
    | user =>
      simp only [if_pos hmay, hmark, bind, Except.bind]

/-- `get_one_page_no_bitmap` returns `NULL` only when the frame of the page is missing. -/
theorem getOnePageNoBitmap_none (h : getOnePageNoBitmap s pf v = .ok (none, s')) :
    (s.pool pf).Empty ∧ s' = s := by
  unfold getOnePageNoBitmap at h
  obtain ⟨⟨page, p⟩, hpal, h⟩ := bind_eq_ok.mp h
  cases page with
  | none =>
    obtain ⟨hempty, rfl⟩ := palloc_eq_none hpal
    cases h
    exact ⟨hempty, by cases pf <;> rfl⟩
  | some page =>
    obtain ⟨s2, -, h⟩ := bind_eq_ok.mp h
    cases h

theorem markPage_pool (hmark : markPage s pf v = .ok s1) : s1.pool pf = s.pool pf ∧
    (s1.vaddrBitmap pf).bit (pageIdx v (s.vaddrStart pf)) = true := by
  unfold markPage at hmark
  obtain ⟨mp, hmp, h⟩ := bind_eq_ok.mp hmark
  obtain ⟨-, -, hbit⟩ := bitmapSetIdx_returns _ _ true mp hmp
  cases h
  constructor
  · cases pf <;> rfl
  · rw [Memory.vaddrBitmap_set, hbit, if_pos rfl]

/-- **No trace of a failed request** is left exactly by `get_one_page` on a page that was
marked before, when it is the frame of the page that is missing. -/
theorem PageRequest.noTrace_iff (s : Memory) (r : PageRequest) (h : r.Missing s) :
    r.NoTrace s ↔ r.Unnoticed s := by
  cases r with
  | mallocPage pf cnt =>
    obtain ⟨⟨hcnt, -⟩, v, s1, hget, -⟩ := h
    constructor
    · rintro ⟨s', hrun, -, -, hbitmap, -⟩
      exact absurd hbitmap (mallocPage_trace hcnt hget _ hrun)
    · exact False.elim
  | getOnePage pf v =>
    obtain ⟨hmay, s1, hmark, -⟩ := h
    obtain ⟨hpool, hbit⟩ := markPage_pool hmark
    have hcall := getOnePage_eq hmay hmark
    constructor
    · rintro ⟨s', hrun, -, -, hbitmap, -⟩
      obtain ⟨hempty, rfl⟩ := getOnePageNoBitmap_none (hcall.symm.trans hrun)
      rw [hpool] at hempty
      have hsame : s'.vaddrBitmap pf = s.vaddrBitmap pf := hbitmap
      rw [hsame] at hbit
      exact ⟨hempty, hbit⟩
    · rintro ⟨hempty, hset⟩
      -- the bit is set, so marking the page changes nothing
      have hs1 : s1 = s := by
        rw [markPage, bitmapSetIdx_self hset] at hmark
        cases hmark
        exact s.setVaddrBitmap_self pf
      subst hs1
      have hnone : s1.setPool pf (s1.pool pf) = s1 := by cases pf <;> rfl
      have hrun : GwOS.getOnePage s1 pf v = .ok (none, s1) := by
        rw [hcall, getOnePageNoBitmap, hempty.palloc]
        show Except.ok (none, s1.setPool pf (s1.pool pf)) = _
        rw [hnone]
      exact ⟨s1, hrun, rfl, rfl, rfl, fun _ _ => ⟨rfl, rfl⟩⟩

/-! ## A pool that is used up -/

/-- A bitmap whose bits are all set. -/
def fullBitmap (len : Nat) : Bitmap := ⟨List.replicate len 255⟩

theorem len_full (len : Nat) : (fullBitmap len).len = len := List.length_replicate

theorem bit_full {len idx : Nat} (h : idx < 8 * len) : (fullBitmap len).bit idx = true := by
  have hbyte : (fullBitmap len).bits[idx / 8]? = some 255 := by
    rw [fullBitmap, List.getElem?_replicate, if_pos (by omega)]
  have hall : ∀ k < 8, (255 : UInt8).toBitVec.getLsbD k = true := by decide
  rw [Bitmap.bit, hbyte]
  exact hall _ (Nat.mod_lt _ (by decide))

theorem empty_full {p : Pool} {len : Nat} (hp : p.poolBitmap = fullBitmap len) (hpos : 1 ≤ len)
    (hlen : len < 2 ^ 32) : p.Empty := by
  have hsize := len_full len
  have hle : 1 ≤ (fullBitmap len).len := hsize.symm ▸ hpos
  have hlt : (fullBitmap len).len < 2 ^ 32 := hsize.symm ▸ hlen
  rw [Pool.Empty, hp]
  obtain ⟨r, hr, hfound⟩ := bitmapApplyCnt_ok (Nat.le_refl 1) hle hlt
  cases r with
  | none => exact hr
  | some j =>
    obtain ⟨-, hlt, hfree⟩ := hfound
    have hbit := hfree 0 (Nat.lt_succ_self 0)
    rw [Nat.add_zero, bit_full (by omega)] at hbit
    cases hbit

/-- The kernel when all its frames are in use. -/
def usedUp : Memory :=
  { bootMemory with kernelPool := { bootMemory.kernelPool with poolBitmap := fullBitmap 480 } }

theorem usedUp_empty : usedUp.kernelPool.Empty := empty_full rfl (by decide) (by decide)

theorem usedUp_missing : (PageRequest.mallocPage .kernel 1).Missing usedUp := by
  have hbitmap : usedUp.vaddrBitmap .kernel = bitmapInit 480 := rfl
  have hfree : (usedUp.vaddrBitmap .kernel).FreeAt 0 1 := by
    intro k _
    rw [hbitmap]
    exact Bitmap.bit_init 480 _
  have hlen : (usedUp.vaddrBitmap .kernel).len = 480 := by rw [hbitmap, Bitmap.len_init]
  have hlt : 1 < (usedUp.vaddrBitmap .kernel).len := by
    rw [hlen]
    decide
  have hbound : (usedUp.vaddrBitmap .kernel).len < 2 ^ 32 := by
    rw [hlen]
    decide
  have hj : 0 < (usedUp.vaddrBitmap .kernel).len - 1 := by omega
  obtain ⟨v, s1, hget⟩ := vaddrGet_ok .kernel nofun (Nat.le_refl 1) hlt hbound hj hfree
  refine ⟨by decide, v, s1, hget, .inl (.inl ?_)⟩
  obtain ⟨hb, -⟩ := vaddrGet_returns (Nat.le_refl 1) hlt hbound _ hget
  show s1.kernelPool.Empty
  rw [hb.kernelPool]
  exact usedUp_empty

/-- The run of `noTrace_iff` in that state. -/
theorem PageRequest.noTrace_iff_usedUp : (mallocPage .kernel 1).NoTrace usedUp ↔
    (mallocPage .kernel 1).Unnoticed usedUp :=
  PageRequest.noTrace_iff usedUp (.mallocPage .kernel 1) usedUp_missing

/-- `malloc_page` leaves a virtual page marked. -/
theorem PageRequest.leaves_trace : ¬ ∀ (s : Memory) (r : PageRequest), r.Missing s → r.NoTrace s := by
  intro h
  obtain ⟨s', hrun, -, -, hbitmap, -⟩ := h usedUp (.mallocPage .kernel 1) usedUp_missing
  obtain ⟨⟨hcnt, -⟩, v, s1, hget, -⟩ := usedUp_missing
  exact mallocPage_trace hcnt hget _ hrun hbitmap

end Requests

end GwOS
