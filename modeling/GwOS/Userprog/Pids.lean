import GwOS.Lib.Runs
import GwOS.Userprog.Lifecycle
import Mathlib.Data.Int.Interval

/-!
# The pool of pids (`thread/thread.c`)

A run of `alloc_pid` and `release_pid`, beside the list of the pids that are out. The bitmap
has 128 bytes, but the search of `alloc_pid` compares the index of a bit with `len - cnt`,
which counts bytes, so it gives out the pids `1` to `127`. When these are out, the search
answers `-1` and `bitmap_set_idx` is called with that as an index.

- `allocPid_ok_iff`: the call returns exactly when one of the first 127 bits is free.
- `PidPool.Counted` ties the bitmap to the list, and both calls keep it.
- `PidPool.serves_iff`: a run goes well exactly when no call of `alloc_pid` meets 127 pids.
-/

namespace GwOS

/-- The calls on the pool. -/
inductive PidCall where
  | allocPid
  | releasePid (pid : Int)
  deriving DecidableEq, Repr

/-- `pid_pool`, and the pids that `alloc_pid` has returned and that were not released. -/
structure PidPool where
  pidBitmap : Bitmap
  outstanding : List Int
  deriving DecidableEq, Repr

/-- `pid_pool_init`. -/
def pidPoolInit : PidPool where
  pidBitmap := bitmapInit 128
  outstanding := []

namespace PidPool

def step (s : PidPool) : PidCall → Except Fault PidPool
  | .allocPid => do
    let (pid, pidBitmap) ← allocPid s.pidBitmap
    .ok ⟨pidBitmap, pid :: s.outstanding⟩
  | .releasePid pid => do
    let pidBitmap ← releasePid s.pidBitmap pid
    .ok ⟨pidBitmap, s.outstanding.erase pid⟩

/-- A pid that is released is one that is out. -/
def Owns (s : PidPool) : PidCall → Prop
  | .allocPid => True
  | .releasePid pid => pid ∈ s.outstanding

/-- The call touches bits of the bitmap only (it returns), and the pids that are out after it
are pairwise distinct, that of the call among them, and in the range of the bitmap. -/
def Serves (s : PidPool) (c : PidCall) : Prop :=
  ∃ s', s.step c = .ok s' ∧ s'.pidBitmap.len = 128 ∧ s'.outstanding.Nodup ∧
    ∀ pid ∈ s'.outstanding, 1 ≤ pid ∧ pid ≤ 1024

end PidPool

/-- No call of `alloc_pid` is made while 127 pids are out, of which there are `n` before the
calls. -/
def RoomFor : Nat → List PidCall → Prop
  | _, [] => True
  | n, .allocPid :: calls => n < 127 ∧ RoomFor (n + 1) calls
  | n, .releasePid _ :: calls => RoomFor (n - 1) calls

/-! ## One call -/

/-- `alloc_pid` returns when a bit below the bound of its search is free. -/
theorem allocPid_ok_iff {mp : Bitmap} (hlen : mp.len = 128) :
    (∃ r, allocPid mp = .ok r) ↔ ∃ i < 127, mp.bit i = false := by
  constructor
  · rintro ⟨⟨pid, mp'⟩, h⟩
    obtain ⟨i, hi, -, hfree, -⟩ := allocPid_eq_ok hlen h
    exact ⟨i, hi, hfree⟩
  · rintro ⟨i, hi, hfree⟩
    have hone : 1 ≤ mp.len := by omega
    obtain ⟨r, hr, hfound⟩ := bitmapApplyCnt_ok (Nat.le_refl 1) hone (by omega)
    cases r with
    | none =>
      have hrun : mp.FreeAt i 1 := fun k hk => by
        rw [Nat.lt_one_iff.mp hk]
        exact hfree
      exact absurd hrun (hfound i (Nat.zero_le i) (by omega))
    | some j =>
      have hj : j < 8 * mp.len := by
        have := hfound.2.1
        omega
      obtain ⟨mp', hset, -⟩ := bitmapSetIdx_ok hj true
      exact ⟨_, bind_eq_ok.mpr ⟨_, hr, bind_eq_ok.mpr ⟨mp', hset, rfl⟩⟩⟩

theorem releasePid_ok {mp : Bitmap} {i : Nat} (hi : i < 127) (hlen : mp.len = 128) :
    ∃ mp', releasePid mp (i + 1) = .ok mp' := by
  have hin : i < 8 * mp.len := by omega
  have hidx : (((i : Int) + 1 - pidStart) % 2 ^ 32).toNat = i := by
    rw [pidStart]
    omega
  obtain ⟨mp', hset, -⟩ := bitmapSetIdx_ok hin false
  refine ⟨mp', ?_⟩
  rw [releasePid, hidx]
  exact hset

namespace PidPool

/-! ## The bitmap and the list -/

/-- The bits of the bitmap are the pids that are out, each of them once. -/
structure Counted (s : PidPool) : Prop where
  len : s.pidBitmap.len = 128
  nodup : s.outstanding.Nodup
  range : ∀ pid ∈ s.outstanding, ∃ i : Nat, i < 127 ∧ pid = i + 1
  bits : ∀ i : Nat, s.pidBitmap.bit i = true ↔ (i + 1 : Int) ∈ s.outstanding

variable {s s' : PidPool}

theorem counted_init : pidPoolInit.Counted where
  len := Bitmap.len_init 128
  nodup := List.nodup_nil
  range := nofun
  bits i := by simp [pidPoolInit]

/-- A bit below the bound is free exactly when fewer than 127 pids are out. -/
theorem Counted.room_iff (h : s.Counted) :
    (∃ i < 127, s.pidBitmap.bit i = false) ↔ s.outstanding.length < 127 := by
  have hcard : s.outstanding.toFinset.card = s.outstanding.length :=
    List.toFinset_card_of_nodup h.nodup
  have hall : (Finset.Icc (1 : Int) 127).card = 127 := by simp
  have hsub : s.outstanding.toFinset ⊆ Finset.Icc 1 127 := by
    intro pid hpid
    obtain ⟨i, hi, rfl⟩ := h.range pid (List.mem_toFinset.mp hpid)
    rw [Finset.mem_Icc]
    omega
  constructor
  · rintro ⟨i, hi, hfree⟩
    by_contra hge
    have heq : s.outstanding.toFinset = Finset.Icc 1 127 :=
      Finset.eq_of_subset_of_card_le hsub (by omega)
    have hin : (i + 1 : Int) ∈ s.outstanding.toFinset := by
      rw [heq, Finset.mem_Icc]
      omega
    rw [(h.bits i).mpr (List.mem_toFinset.mp hin)] at hfree
    cases hfree
  · intro hlt
    obtain ⟨pid, hpid, hout⟩ : ∃ pid ∈ Finset.Icc (1 : Int) 127, pid ∉ s.outstanding.toFinset :=
      Finset.exists_mem_notMem_of_card_lt_card (by omega)
    rw [Finset.mem_Icc] at hpid
    refine ⟨(pid - 1).toNat, by omega, ?_⟩
    rw [← Bool.not_eq_true, h.bits]
    have hpred : (((pid - 1).toNat : Int) + 1) = pid := by omega
    rw [hpred]
    exact fun hin => hout (List.mem_toFinset.mpr hin)

theorem Counted.alloc (h : s.Counted) (hstep : s.step .allocPid = .ok s') :
    s'.Counted ∧ s'.outstanding.length = s.outstanding.length + 1 := by
  obtain ⟨⟨pid, mp⟩, hpid, hok⟩ := bind_eq_ok.mp hstep
  cases hok
  obtain ⟨i, hi, rfl, hfree, hlen, hbit⟩ := allocPid_eq_ok h.len hpid
  have hnew : (i + 1 : Int) ∉ s.outstanding := fun hin => by
    rw [(h.bits i).mpr hin] at hfree
    cases hfree
  refine ⟨⟨hlen, List.nodup_cons.mpr ⟨hnew, h.nodup⟩, ?_, fun j => ?_⟩, rfl⟩
  · intro pid hpid
    cases hpid with
    | head => exact ⟨i, hi, rfl⟩
    | tail _ hpid => exact h.range pid hpid
  · rw [hbit, List.mem_cons]
    by_cases hj : j = i
    · simp [hj]
    · have hne : ¬ ((j : Int) + 1 = i + 1) := by omega
      rw [if_neg hj, h.bits, or_iff_right hne]

theorem Counted.release {pid : Int} (h : s.Counted) (hpid : pid ∈ s.outstanding)
    (hstep : s.step (.releasePid pid) = .ok s') :
    s'.Counted ∧ s'.outstanding.length = s.outstanding.length - 1 := by
  obtain ⟨mp, hrel, hok⟩ := bind_eq_ok.mp hstep
  cases hok
  obtain ⟨i, hi, rfl⟩ := h.range pid hpid
  obtain ⟨hlen, hbit⟩ := releasePid_eq_ok hi h.len hrel
  refine ⟨⟨hlen, h.nodup.erase _, fun pid hin => h.range pid (List.mem_of_mem_erase hin),
    fun j => ?_⟩, List.length_erase_of_mem hpid⟩
  rw [hbit, h.nodup.mem_erase_iff]
  by_cases hj : j = i
  · simp [hj]
  · have hne : (j : Int) + 1 ≠ i + 1 := by omega
    rw [if_neg hj, h.bits, and_iff_right hne]

theorem Counted.serves (h : s'.Counted) {c : PidCall} (hstep : s.step c = .ok s') :
    s.Serves c := by
  refine ⟨s', hstep, h.len, h.nodup, fun pid hpid => ?_⟩
  obtain ⟨i, hi, rfl⟩ := h.range pid hpid
  omega

theorem Counted.alloc_serves_iff (h : s.Counted) :
    s.Serves .allocPid ↔ s.outstanding.length < 127 := by
  rw [← h.room_iff, ← allocPid_ok_iff h.len]
  constructor
  · rintro ⟨s', hstep, -⟩
    obtain ⟨r, hr, -⟩ := bind_eq_ok.mp hstep
    exact ⟨r, hr⟩
  · rintro ⟨r, hr⟩
    have hstep : s.step .allocPid = .ok ⟨r.2, r.1 :: s.outstanding⟩ :=
      bind_eq_ok.mpr ⟨r, hr, rfl⟩
    exact (h.alloc hstep).1.serves hstep

theorem Counted.release_serves {pid : Int} (h : s.Counted) (hpid : pid ∈ s.outstanding) :
    s.Serves (.releasePid pid) := by
  obtain ⟨i, hi, rfl⟩ := h.range pid hpid
  obtain ⟨mp, hrel⟩ := releasePid_ok hi h.len
  have hstep : s.step (.releasePid (i + 1)) = .ok ⟨mp, s.outstanding.erase (i + 1)⟩ :=
    bind_eq_ok.mpr ⟨mp, hrel, rfl⟩
  exact (h.release hpid hstep).1.serves hstep

/-! ## Runs -/

theorem serves_iff (calls : List PidCall) (h : s.Counted) (hown : Meets step Owns calls s) :
    Meets step Serves calls s ↔ RoomFor s.outstanding.length calls := by
  induction calls generalizing s with
  | nil => exact Iff.rfl
  | cons c calls ih =>
    obtain ⟨hc, hown⟩ := hown
    cases c with
    | allocPid =>
      constructor
      · rintro ⟨hserves, hrest⟩
        obtain ⟨s', hstep, -⟩ := id hserves
        obtain ⟨hs', hlen⟩ := h.alloc hstep
        refine ⟨h.alloc_serves_iff.mp hserves, ?_⟩
        rw [← hlen]
        exact (ih hs' (hown s' hstep)).mp (hrest s' hstep)
      · rintro ⟨hlt, hrest⟩
        refine ⟨h.alloc_serves_iff.mpr hlt, fun s' hstep => ?_⟩
        obtain ⟨hs', hlen⟩ := h.alloc hstep
        rw [← hlen] at hrest
        exact (ih hs' (hown s' hstep)).mpr hrest
    | releasePid pid =>
      have hserves := h.release_serves hc
      constructor
      · rintro ⟨-, hrest⟩
        obtain ⟨s', hstep, -⟩ := hserves
        obtain ⟨hs', hlen⟩ := h.release hc hstep
        rw [RoomFor, ← hlen]
        exact (ih hs' (hown s' hstep)).mp (hrest s' hstep)
      · intro hrest
        refine ⟨hserves, fun s' hstep => ?_⟩
        obtain ⟨hs', hlen⟩ := h.release hc hstep
        rw [RoomFor, ← hlen] at hrest
        exact (ih hs' (hown s' hstep)).mpr hrest

/-- From `pid_pool_init` on, the pids that are out are distinct, in the range of the bitmap,
and kept in bits of the bitmap, through every run in which no call of `alloc_pid` is made
while 127 pids are out, and through no other. -/
theorem pids_unique_iff (calls : List PidCall) (hown : Meets step Owns calls pidPoolInit) :
    Meets step Serves calls pidPoolInit ↔ RoomFor 0 calls :=
  serves_iff calls counted_init hown

theorem pids_unique_iff_pair :
    Meets step Owns [.allocPid, .releasePid 1] pidPoolInit ∧
      (Meets step Serves [.allocPid, .releasePid 1] pidPoolInit ↔
        RoomFor 0 [.allocPid, .releasePid 1]) := by
  have hown : Meets step Owns [.allocPid, .releasePid 1] pidPoolInit := by
    refine ⟨trivial, fun s' hstep => ⟨?_, fun _ _ => trivial⟩⟩
    cases (bind_eq_ok.mpr ⟨_, Threads.allocPid_first.1, rfl⟩ :
      pidPoolInit.step .allocPid = .ok _).symm.trans hstep
    exact List.mem_cons_self
  exact ⟨hown, pids_unique_iff _ hown⟩

theorem owns_replicate (n : Nat) (s : PidPool) :
    Meets step Owns (List.replicate n .allocPid) s := by
  induction n generalizing s with
  | zero => trivial
  | succ n ih => exact ⟨trivial, fun s' _ => ih s'⟩

theorem roomFor_replicate (n k : Nat) :
    RoomFor k (List.replicate n .allocPid) ↔ n = 0 ∨ k + n ≤ 127 := by
  induction n generalizing k with
  | zero => simp [RoomFor]
  | succ n ih =>
    rw [List.replicate_succ, RoomFor, ih]
    omega

/-- After 127 calls of `alloc_pid` the next one sets a bit far outside of the bitmap. -/
theorem pids_unique_fails : Meets step Owns (List.replicate 128 .allocPid) pidPoolInit ∧
    Meets step Serves (List.replicate 127 .allocPid) pidPoolInit ∧
    ¬ Meets step Serves (List.replicate 128 .allocPid) pidPoolInit := by
  refine ⟨owns_replicate 128 _, ?_, fun h => ?_⟩
  · exact (serves_iff _ counted_init (owns_replicate 127 _)).mpr ((roomFor_replicate 127 0).mpr
      (.inr (Nat.le_refl 127)))
  · obtain hzero | hle := (roomFor_replicate 128 0).mp
      ((serves_iff _ counted_init (owns_replicate 128 _)).mp h)
    · cases hzero
    · omega

end PidPool

end GwOS
