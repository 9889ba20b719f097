import Mathlib.Logic.Relation
import GwOS.Kernel.Debug

/-!
# The timer (`device/timer.c`)

`timer_init` programs counter 0 of the 8253, which from then on raises IRQ0 every `R` pulses of
its input, and the handler of the interrupt counts `ticks`. `ms_sleep` waits until enough of them
have gone by. What the handler does to the threads is `Threads.intrTimerHandler`.

Time is counted in input pulses. An interrupt waits until the processor takes it, and one that is
raised while another waits is lost. `ClockStep` is one event of this hardware, and a run of
`ms_sleep` lets any of them happen between any two of its own steps (`MsSleep`).

- `msSleep_lasts`: a sleep of `n` ticks takes more than `(n - 1) * R` pulses when no interrupt
  waits at the call, also when the counter wraps.
- `msSleep_lasts_iff`: the pulses of a tick are not those that `timer.c` asks for. The cast in
  `(uint8_t)counter_value >> 8` comes before the shift, so that the high byte is zero.
-/

namespace GwOS

/-! ## Programming the counter -/

def irq0Frequency : Nat := 100
def inputFrequency : Nat := 1193180

/-- `COUNTER0_VALUE` -/
def counter0Value : UInt16 := UInt16.ofNat (inputFrequency / irq0Frequency)

def counter0Port : UInt8 := 0x40
def pitControlPort : UInt8 := 0x43

/-- `ms_per_intr` -/
def msPerIntr : UInt32 := UInt32.ofNat (1000 / irq0Frequency)

/-- `frequency_set`, as the ports and bytes of its three `outb`. -/
def frequencySet (counterPort counterNo rwl counterMode : UInt8) (counterValue : UInt16) :
    List (UInt8 × UInt8) :=
  [(pitControlPort,
      UInt8.ofNat (counterNo.toNat <<< 6 ||| rwl.toNat <<< 4 ||| counterMode.toNat <<< 1)),
    (counterPort, counterValue.toUInt8),
    -- the cast binds tighter than the shift
    (counterPort, UInt8.ofNat (counterValue.toUInt8.toNat >>> 8))]

/-- The port writes of `timer_init`. -/
def timerInit : List (UInt8 × UInt8) := frequencySet counter0Port 0 3 2 counter0Value

/-- What counter 0 receives: the low byte, then the high byte. -/
def received (writes : List (UInt8 × UInt8)) : Nat :=
  match writes.filter (·.1 = counter0Port) with
  | low :: high :: _ => low.2.toNat + 256 * high.2.toNat
  | _ => 0

/-- The pulses between two interrupts. -/
def reload : Nat := received timerInit

theorem reload_eq : reload = 155 := by decide

/-! ## The clock -/

/-- The input pulses so far, the pulses that are left until the counter raises IRQ0 again,
whether an interrupt waits, and `ticks`. -/
structure Clock where
  now : Nat
  left : Nat
  pending : Bool
  ticks : UInt32

/-- `ticks++` in `intr_timer_handler`. -/
def Clock.tick (c : Clock) : Clock := { c with ticks := c.ticks + 1 }

/-- One event of the clock. -/
inductive ClockStep (R : Nat) : Clock → Clock → Prop where
  | pulse (c : Clock) : 1 < c.left → ClockStep R c { c with now := c.now + 1, left := c.left - 1 }
  | raise (c : Clock) :
      c.left = 1 → ClockStep R c { c with now := c.now + 1, left := R, pending := true }
  | interrupt (c : Clock) :
      c.pending = true → ClockStep R c { c with pending := false }.tick

/-- Any events, in any number. -/
abbrev ClockRun (R : Nat) : Clock → Clock → Prop := Relation.ReflTransGen (ClockStep R)

/-! ## Sleeping -/

/-- The loop of `ticks_to_sleep`. The thread is away between two of its tests. -/
inductive TicksToSleep (R : Nat) (startTick sleepTicks : UInt32) : Clock → Clock → Prop where
  | wake (c : Clock) :
      ¬ c.ticks - startTick < sleepTicks → TicksToSleep R startTick sleepTicks c c
  | threadYield {c c' c'' : Clock} : c.ticks - startTick < sleepTicks → ClockRun R c c' →
      TicksToSleep R startTick sleepTicks c' c'' → TicksToSleep R startTick sleepTicks c c''

/-- `DIV_ROUND_UP(ms, ms_per_intr)` -/
def sleepTicks (ms : UInt32) : UInt32 := (ms + msPerIntr - 1) / msPerIntr

/-- `ms_sleep(ms)` is called at `c` and returns at `c'`. -/
def MsSleep (R : Nat) (ms : UInt32) (c c' : Clock) : Prop :=
  0 < sleepTicks ms ∧ ∃ c1 c2 c3, ClockRun R c c1 ∧ ClockRun R c1 c2 ∧
    TicksToSleep R c1.ticks (sleepTicks ms) c2 c3 ∧ ClockRun R c3 c'

/-- `ceil(ms / 10)`, as long as the sum does not wrap. -/
theorem sleepTicks_toNat {ms : UInt32} (h : ms.toNat ≤ 2 ^ 32 - 10) :
    (sleepTicks ms).toNat = (ms.toNat + 9) / 10 := by
  have hper : msPerIntr.toNat = 10 := by decide
  have hadd : (ms + msPerIntr).toNat = (ms.toNat + 10) % 2 ^ 32 := by
    rw [UInt32.toNat_add, hper]
  rw [sleepTicks, UInt32.toNat_div, UInt32.toNat_sub, hadd, hper]
  show (2 ^ 32 - 1 + (ms.toNat + 10) % 2 ^ 32) % 2 ^ 32 / 10 = _
  congr 1
  omega

/-! ## How long it takes -/

/-- Whether an interrupt waits, as a number. -/
def Clock.waiting (c : Clock) : Nat := if c.pending then 1 else 0

/-- Between `c` and `c'` the counter has come to its end `k` times and `n` interrupts have been
taken. -/
structure Elapsed (R : Nat) (c c' : Clock) (k n : Nat) : Prop where
  now : c.now ≤ c'.now
  pulses : c.now + c.left + k * R = c'.now + c'.left
  left : 0 < c'.left ∧ c'.left ≤ R
  taken : n + c'.waiting ≤ k + c.waiting
  ticks : c'.ticks = c.ticks + UInt32.ofNat n

theorem Elapsed.refl {R : Nat} {c : Clock} (h : 0 < c.left ∧ c.left ≤ R) : Elapsed R c c 0 0 :=
  ⟨Nat.le_refl _, by omega, h, Nat.le_refl _, by simp⟩

/-- One event. -/
theorem Elapsed.step {R : Nat} {c c' c'' : Clock} {k n : Nat} (h : Elapsed R c c' k n)
    (hstep : ClockStep R c' c'') : ∃ k' n', Elapsed R c c'' k' n' ∧ n ≤ n' := by
  obtain ⟨hn, hp, ⟨hl, hle⟩, ht, hticks⟩ := h
  cases hstep with
  | pulse hleft =>
    refine ⟨k, n, ⟨Nat.le_succ_of_le hn, ?_, ?_, ht, hticks⟩, Nat.le_refl _⟩
    · show _ = c'.now + 1 + (c'.left - 1)
      omega
    · show 0 < c'.left - 1 ∧ c'.left - 1 ≤ R
      omega
  | raise hleft =>
    refine ⟨k + 1, n, ⟨Nat.le_succ_of_le hn, ?_, ⟨?_, Nat.le_refl _⟩, ?_, hticks⟩, Nat.le_refl _⟩
    · show _ = c'.now + 1 + R
      rw [Nat.succ_mul]
      omega
    · show 0 < R
      omega
    · -- one that waits already is lost
      have hone : c'.waiting ≤ 1 := by
        unfold Clock.waiting
        split <;> omega
      show n + 1 ≤ _
      omega
  | interrupt hpend =>
    refine ⟨k, n + 1, ⟨hn, hp, ⟨hl, hle⟩, ?_, ?_⟩, Nat.le_succ _⟩
    · have hw : c'.waiting = 1 := if_pos hpend
      show n + 1 + 0 ≤ _
      omega
    · show c'.ticks + 1 = _
      rw [hticks, UInt32.ofNat_add, UInt32.add_assoc]
      rfl

theorem Elapsed.run {R : Nat} {c c' c'' : Clock} {k n : Nat} (h : Elapsed R c c' k n)
    (hrun : ClockRun R c' c'') : ∃ k' n', Elapsed R c c'' k' n' ∧ n ≤ n' := by
  induction hrun with
  | refl => exact ⟨k, n, h, Nat.le_refl _⟩
  | tail _ hstep ih =>
    obtain ⟨k1, n1, h1, hn1⟩ := ih
    obtain ⟨k2, n2, h2, hn2⟩ := h1.step hstep
    exact ⟨k2, n2, h2, Nat.le_trans hn1 hn2⟩

/-- At the end of the loop, `ticks` has been counted up by `sleepTicks` since the loop has
started, or further. -/
theorem Elapsed.sleep {R : Nat} {c c' c'' : Clock} {k n m : Nat} {ticks : UInt32}
    (h : Elapsed R c c' k n) (hm : m ≤ n)
    (hrun : TicksToSleep R (c.ticks + UInt32.ofNat m) ticks c' c'') :
    ∃ k' n', Elapsed R c c'' k' n' ∧ m + ticks.toNat ≤ n' := by
  induction hrun generalizing k n with
  | wake c' hdone =>
    refine ⟨k, n, h, ?_⟩
    have hsub : c'.ticks - (c.ticks + UInt32.ofNat m) = UInt32.ofNat (n - m) := by
      apply UInt32.toNat_inj.mp
      rw [h.ticks, UInt32.toNat_sub, UInt32.toNat_add, UInt32.toNat_add, UInt32.toNat_ofNat',
        UInt32.toNat_ofNat', UInt32.toNat_ofNat']
      omega
    have hge := UInt32.not_lt.mp hdone
    rw [hsub, UInt32.le_iff_toNat_le, UInt32.toNat_ofNat'] at hge
    have hmod := Nat.mod_le (n - m) (2 ^ 32)
    omega
  | threadYield _ hrun _ ih =>
    obtain ⟨k1, n1, h1, hn1⟩ := h.run hrun
    exact ih h1 (Nat.le_trans hm hn1)

/-- **How long a sleep lasts**, in pulses: one tick less than asked for, and another one less
when an interrupt waits at the call. -/
theorem msSleep_lasts {R : Nat} {ms : UInt32} {c c' : Clock} (hleft : 0 < c.left ∧ c.left ≤ R)
    (hsleep : MsSleep R ms c c') :
    c.now + ((sleepTicks ms).toNat - 1 - c.waiting) * R ≤ c'.now := by
  obtain ⟨-, c1, c2, c3, h01, h12, h23, h34⟩ := hsleep
  obtain ⟨k1, m, h1, -⟩ := (Elapsed.refl hleft).run h01
  obtain ⟨k2, n2, h2, hm⟩ := h1.run h12
  rw [h1.ticks] at h23
  obtain ⟨k3, n3, h3, hn3⟩ := h2.sleep hm h23
  obtain ⟨k, n, h, hn⟩ := h3.run h34
  obtain ⟨hnow, hpulses, hleft', htaken, -⟩ := h
  have hk : (sleepTicks ms).toNat - 1 - c.waiting ≤ k - 1 := by omega
  refine Nat.le_trans (Nat.add_le_add_left (Nat.mul_le_mul_right R hk) _) ?_
  cases k with
  | zero =>
    rw [Nat.zero_sub, Nat.zero_mul]
    exact hnow
  | succ k =>
    rw [Nat.succ_mul] at hpulses
    rw [Nat.add_sub_cancel]
    omega

/-! ## The shortest sleeps -/

/-- The counter runs down. -/
theorem ClockRun.pulses {R : Nat} {c : Clock} (n : Nat) (h : n < c.left) :
    ClockRun R c { c with now := c.now + n, left := c.left - n } := by
  induction n with
  | zero => exact .refl
  | succ n ih =>
    have hleft : 1 < c.left - n := by omega
    exact (ih (by omega)).tail (.pulse { c with now := c.now + n, left := c.left - n } hleft)

/-- The counter comes to its end, and the interrupt is taken at once. -/
theorem ClockRun.period {R : Nat} {c : Clock} (h : 0 < c.left) :
    ClockRun R c ⟨c.now + c.left, R, false, c.ticks + 1⟩ := by
  have hdown : ClockRun R c ⟨c.now + (c.left - 1), 1, c.pending, c.ticks⟩ := by
    have hrun := ClockRun.pulses (R := R) (c := c) (c.left - 1) (by omega)
    rwa [show c.left - (c.left - 1) = 1 by omega] at hrun
  have hraise : ClockStep R ⟨c.now + (c.left - 1), 1, c.pending, c.ticks⟩
      ⟨c.now + (c.left - 1) + 1, R, true, c.ticks⟩ := .raise _ rfl
  rw [show c.now + (c.left - 1) + 1 = c.now + c.left by omega] at hraise
  exact (hdown.tail hraise).tail (.interrupt _ rfl)

/-- `n` periods from the load of the counter on. -/
theorem ClockRun.periods {R : Nat} (hR : 0 < R) (n now : Nat) (ticks : UInt32) :
    ClockRun R ⟨now, R, false, ticks⟩ ⟨now + n * R, R, false, ticks + UInt32.ofNat n⟩ := by
  induction n with
  | zero =>
    have hzero : ticks + UInt32.ofNat 0 = ticks := UInt32.add_zero ticks
    rw [Nat.zero_mul, Nat.add_zero, hzero]
  | succ n ih =>
    have hnow : now + (n + 1) * R = now + n * R + R := by
      rw [Nat.succ_mul, Nat.add_assoc]
    have hticks : ticks + UInt32.ofNat (n + 1) = ticks + UInt32.ofNat n + 1 := by
      rw [UInt32.ofNat_add, UInt32.add_assoc]
      rfl
    rw [hnow, hticks]
    exact ih.trans (ClockRun.period hR)

/-- Just before the counter comes to its end, a sleep of `n` ticks takes one pulse and `n - 1`
periods. -/
theorem msSleep_shortest {R : Nat} {ms : UInt32} (hR : 0 < R) (hpos : 0 < sleepTicks ms)
    (ticks : UInt32) : ∃ c', MsSleep R ms ⟨0, 1, false, ticks⟩ c' ∧
      c'.now = 1 + ((sleepTicks ms).toNat - 1) * R := by
  have hone : 0 < (sleepTicks ms).toNat := UInt32.lt_iff_toNat_lt.mp hpos
  let n := (sleepTicks ms).toNat - 1
  refine ⟨⟨1 + n * R, R, false, ticks + 1 + UInt32.ofNat n⟩, ⟨hpos, _, _, _, .refl, ?_, .wake _ ?_,
    .refl⟩, rfl⟩
  · exact (ClockRun.period Nat.one_pos).trans (ClockRun.periods hR n 1 (ticks + 1))
  · -- all the ticks have been counted
    have hall : ticks + 1 + UInt32.ofNat n - ticks = sleepTicks ms := by
      have hn : n = (sleepTicks ms).toNat - 1 := rfl
      have hlt := (sleepTicks ms).toNat_lt
      have hlt' := ticks.toNat_lt
      apply UInt32.toNat_inj.mp
      rw [UInt32.toNat_sub, UInt32.toNat_add, UInt32.toNat_add, UInt32.toNat_ofNat']
      show (2 ^ 32 - ticks.toNat + ((ticks.toNat + 1) % 2 ^ 32 + n % 2 ^ 32) % 2 ^ 32) % 2 ^ 32 = _
      omega
    rw [hall]
    exact UInt32.lt_irrefl _

/-- Every run of `ms_sleep(ms)` lasts for the pulses that `timer.c` asks for. -/
def SleepLasts (ms : UInt32) : Prop :=
  ∀ c c', 0 < c.left ∧ c.left ≤ reload → MsSleep reload ms c c' →
    c.now + ((ms.toNat + 9) / 10 - 1) * 11931 ≤ c'.now

/-- **Which sleeps last.** With the counter as `timer_init` loads it, only those of a single
tick, of which nothing is asked. -/
theorem msSleep_lasts_iff {ms : UInt32} (h1 : 1 ≤ ms.toNat) (hmax : ms.toNat ≤ 2 ^ 32 - 10) :
    SleepLasts ms ↔ ms.toNat ≤ 10 := by
  have hticks := sleepTicks_toNat hmax
  have hpos : 0 < sleepTicks ms := by
    rw [UInt32.lt_iff_toNat_lt, hticks]
    show 0 < _
    omega
  constructor
  · intro h
    by_contra hlong
    obtain ⟨c', hsleep, hnow⟩ := msSleep_shortest (R := reload) (by decide) hpos 0
    have hlasts := h _ c' (by decide) hsleep
    rw [hnow, hticks, reload_eq] at hlasts
    show False
    simp only [Nat.zero_add] at hlasts
    omega
  · intro hshort c c' hleft hsleep
    have hzero : (ms.toNat + 9) / 10 - 1 = 0 := by omega
    have hnow := msSleep_lasts hleft hsleep
    rw [hzero, Nat.zero_mul, Nat.add_zero]
    omega

/-- One millisecond. -/
theorem msSleep_lasts_one : SleepLasts 1 :=
  (msSleep_lasts_iff (by decide) (by decide)).mpr (by decide)

/-- A sleep of 20 ms that is over after 156 pulses, 131 microseconds. -/
theorem msSleep_short : ¬ SleepLasts 20 := by
  intro h
  obtain ⟨c', hsleep, hnow⟩ := msSleep_shortest (R := reload) (by decide)
    (by decide : 0 < sleepTicks 20) 0
  have hlasts := h _ c' (by decide) hsleep
  have hshort : (sleepTicks 20).toNat = 2 := by decide
  rw [hnow, hshort, reload_eq] at hlasts
  exact absurd hlasts (by decide)

/-! ## Coming back -/

/-- Which calls come to the loop: the sum in `DIV_ROUND_UP` wraps for the last values of `ms`. -/
theorem sleepTicks_pos_iff {ms : UInt32} :
    0 < sleepTicks ms ↔ 0 < ms.toNat ∧ ms.toNat < 2 ^ 32 - 9 := by
  have hper : msPerIntr.toNat = 10 := by decide
  have hlt := ms.toNat_lt
  have hticks : (sleepTicks ms).toNat = (2 ^ 32 - 1 + (ms.toNat + 10) % 2 ^ 32) % 2 ^ 32 / 10 := by
    rw [sleepTicks, UInt32.toNat_div, UInt32.toNat_sub, UInt32.toNat_add, hper]
    rfl
  rw [UInt32.lt_iff_toNat_lt, hticks]
  show 0 < _ ↔ _
  omega

/-- The `ASSERT` of `ms_sleep` holds, and wherever its loop is, it can still come to its end. -/
def SleepReturns (R : Nat) (ms : UInt32) (c : Clock) : Prop :=
  0 < sleepTicks ms ∧ ∀ c1 c2, ClockRun R c c1 → ClockRun R c1 c2 →
    ∃ c3, TicksToSleep R c1.ticks (sleepTicks ms) c2 c3

/-- The interrupts that are missing are still to come. -/
theorem TicksToSleep.possible {R : Nat} {c : Clock} (hR : 0 < R) (hleft : 0 < c.left)
    (startTick n : UInt32) : ∃ c', TicksToSleep R startTick n c c' := by
  by_cases hdone : c.ticks - startTick < n
  · let k := n.toNat - (c.ticks - startTick).toNat - 1
    have hrun := (ClockRun.period hleft).trans (ClockRun.periods hR k (c.now + c.left) (c.ticks + 1))
    refine ⟨_, .threadYield hdone hrun (.wake _ ?_)⟩
    have hall : c.ticks + 1 + UInt32.ofNat k - startTick = n := by
      have hk : k = n.toNat - (c.ticks - startTick).toNat - 1 := rfl
      have hlt := UInt32.lt_iff_toNat_lt.mp hdone
      have hn := n.toNat_lt
      have hc := c.ticks.toNat_lt
      have hs := startTick.toNat_lt
      rw [UInt32.toNat_sub] at hk hlt
      apply UInt32.toNat_inj.mp
      rw [UInt32.toNat_sub, UInt32.toNat_add, UInt32.toNat_add, UInt32.toNat_ofNat']
      show (2 ^ 32 - startTick.toNat + ((c.ticks.toNat + 1) % 2 ^ 32 + k % 2 ^ 32) % 2 ^ 32) % 2 ^ 32 = _
      omega
    rw [hall]
    exact UInt32.lt_irrefl n
  · exact ⟨c, .wake c hdone⟩

/-- **Which sleeps come back.** -/
theorem sleepReturns_of_left {R : Nat} {ms : UInt32} {c : Clock} (hleft : 0 < c.left ∧ c.left ≤ R) :
    SleepReturns R ms c ↔ 0 < ms.toNat ∧ ms.toNat < 2 ^ 32 - 9 := by
  rw [SleepReturns, sleepTicks_pos_iff, and_iff_left]
  intro c1 c2 h1 h2
  obtain ⟨k1, n1, he1, -⟩ := (Elapsed.refl hleft).run h1
  obtain ⟨k2, n2, he2, -⟩ := he1.run h2
  exact TicksToSleep.possible (Nat.lt_of_lt_of_le hleft.1 hleft.2) he2.left.1 c1.ticks (sleepTicks ms)

end GwOS
