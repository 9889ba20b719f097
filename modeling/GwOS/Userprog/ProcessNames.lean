import GwOS.Filesystem.Buffers
import GwOS.Lib.Runs
import GwOS.Userprog.Fork

/-!
# The names of processes

`struct pcb` has 16 bytes for a name. A fork gives the child the name of its parent with `_fork`
behind it, and asserts before that there is room; `sys_execv` copies 16 bytes from the 11 of
`Filename`, and what follows them in `struct File`.

The argument is about lengths. `forkName_strlen`: a child's name is longer by 5, so the child of
a process can fork in turn when the name of the process has fewer than 6 characters.
`execName_strlen`: behind `sys_execv` the name is as long as what is in front of the first zero
byte, so it has fewer than 11 characters only if `Filename` has one.
-/

namespace GwOS

/-! ## The model -/

/-- What `struct pcb` says of a process here; `parent` is the process that has forked it. -/
structure Process where
  parent : Option Nat
  name : Bytes 16

/-- The processes, each behind its parent. -/
abbrev ProcessTree := List Process

/-- `strcpy(thread->name, "init")` in a record that is zero. -/
def initName : Bytes 16 := Str.inArray [0x69, 0x6E, 0x69, 0x74] 16

/-- The name in `copy_pcb_vaddrbitmap_stack0`. A name without a zero byte goes on in `priority`,
and `strlen` is then 16 at least. -/
def forkName (name : Bytes 16) : Except Fault (Bytes 16) :=
  match name.strlen? with
  | none => .error .assert
  | some len =>
    if len < 11 then
      .ok ((((((name.set len 0x5F).set (len + 1) 0x66).set (len + 2) 0x6F).set (len + 3) 0x72).set
        (len + 4) 0x6B).set (len + 5) 0)
    else .error .assert

/-- `memcpy(cur->name, acfile->file->Filename, 16)`. -/
def execName (file : File) : Bytes 16 := Bytes.ofFn fun i =>
  if i < 11 then file.filename.get i else if i = 11 then file.attr else file.reserved.get (i - 12)

/-- A call by one of the processes: a `sys_fork` that gets its memory, or `sys_execv` with the
result of `load`. -/
inductive ProcessCall where
  | fork (p : Nat)
  | execv (p : Nat) (file : File) (entryPoint : Int32)

namespace ProcessTree

/-- The tree that the kernel starts with. -/
def init : ProcessTree := [⟨none, initName⟩]

/-- A call. -/
def step (t : ProcessTree) : ProcessCall → Except Fault ProcessTree
  | .fork p =>
    match t[p]? with
    | none => .error .nullDeref
    | some parent => do
      let name ← forkName parent.name
      .ok (t ++ [⟨some p, name⟩])
  | .execv p file entryPoint =>
    match t[p]? with
    | none => .error .nullDeref
    | some cur => .ok (if entryPoint = -1 then t else t.set p { cur with name := execName file })

/-- Every name ends within its 16 bytes, and whichever process forks, the assertion holds. -/
structure MayFork (t : ProcessTree) : Prop where
  ends : ∀ q ∈ t, ∃ i < 16, q.name.get i = 0
  forks : ∀ p, t.step (.fork p) ≠ .error .assert

/-- The condition on a call: who forks has a name of fewer than 6 characters, and who
becomes another program takes it from a file that has a zero byte in its `Filename`. -/
def Fits (t : ProcessTree) : ProcessCall → Prop
  | .fork p => ∀ parent, t[p]? = some parent → ∃ len < 6, parent.name.strlen? = some len
  | .execv p file entryPoint => p < t.length → entryPoint ≠ -1 → ∃ i < 11, file.filename.get i = 0

end ProcessTree

/-! ## Lengths -/

section Lengths

variable {n len i : Nat} {b : Bytes n} {name : Bytes 16} {str : Str}

theorem Bytes.strlen?_eq_some : b.strlen? = some len ↔
    len < n ∧ b.get len = 0 ∧ ∀ j < len, b.get j ≠ 0 := by
  constructor
  · intro h
    obtain ⟨hend, hlen, hne⟩ := List.find?_range_eq_some.mp h
    refine ⟨List.mem_range.mp hlen, by simpa using hend, fun j hj => ?_⟩
    simpa using hne j hj
  · rintro ⟨hlen, hend, hne⟩
    exact Bytes.strlen?_eq hlen hend hne

/-- The string ends at the first zero byte, if there is one. -/
theorem Bytes.strlen?_of_zero (hi : i < n) (h : b.get i = 0) : ∃ len ≤ i, b.strlen? = some len := by
  have hex : ∃ k, k < n ∧ b.get k = 0 := ⟨i, hi, h⟩
  refine ⟨Nat.find hex, Nat.find_min' hex ⟨hi, h⟩, Bytes.strlen?_eq_some.mpr ?_⟩
  obtain ⟨hlt, hzero⟩ := Nat.find_spec hex
  refine ⟨hlt, hzero, fun j hj hz => ?_⟩
  exact Nat.find_min hex hj ⟨by omega, hz⟩

/-- What follows the last of the writes. -/
theorem forkName_get {name' : Bytes 16} (hlen : name.strlen? = some len) (h : forkName name = .ok name') :
    len < 11 ∧ (∀ j < len, name'.get j = name.get j) ∧ name'.get len = 0x5F ∧
      name'.get (len + 1) = 0x66 ∧ name'.get (len + 2) = 0x6F ∧ name'.get (len + 3) = 0x72 ∧
      name'.get (len + 4) = 0x6B ∧ name'.get (len + 5) = 0 := by
  rw [forkName, hlen] at h
  dsimp only at h
  split at h
  · next hlt =>
    cases h
    refine ⟨hlt, fun j hj => ?_, ?_, ?_, ?_, ?_, ?_, ?_⟩
    · iterate 6 rw [Bytes.get_set_ne _ _ (by omega)]
    · iterate 5 rw [Bytes.get_set_ne _ _ (by omega)]
      rw [Bytes.get_set_self _ _ (by omega)]
    · iterate 4 rw [Bytes.get_set_ne _ _ (by omega)]
      rw [Bytes.get_set_self _ _ (by omega)]
    · iterate 3 rw [Bytes.get_set_ne _ _ (by omega)]
      rw [Bytes.get_set_self _ _ (by omega)]
    · iterate 2 rw [Bytes.get_set_ne _ _ (by omega)]
      rw [Bytes.get_set_self _ _ (by omega)]
    · rw [Bytes.get_set_ne _ _ (by omega), Bytes.get_set_self _ _ (by omega)]
    · rw [Bytes.get_set_self _ _ (by omega)]
  · cases h

/-- The assertion of a fork. -/
theorem forkName_ok (hlen : name.strlen? = some len) (hlt : len < 11) : ∃ name', forkName name = .ok name' := by
  rw [forkName, hlen]
  dsimp only
  rw [if_pos hlt]
  exact ⟨_, rfl⟩

theorem forkName_error (h : ¬ ∃ len < 11, name.strlen? = some len) : forkName name = .error .assert := by
  rw [forkName]
  cases hs : name.strlen? with
  | none => rfl
  | some len => exact if_neg fun hlt => h ⟨len, hlt, hs⟩

/-- The name of a child. -/
theorem forkName_strlen {name' : Bytes 16} (hlen : name.strlen? = some len)
    (h : forkName name = .ok name') : name'.strlen? = some (len + 5) := by
  obtain ⟨hlt, hsame, h0, h1, h2, h3, h4, h5⟩ := forkName_get hlen h
  obtain ⟨-, -, hne⟩ := Bytes.strlen?_eq_some.mp hlen
  refine Bytes.strlen?_eq (by omega) h5 fun j hj => ?_
  by_cases hj' : j < len
  · rw [hsame j hj']
    exact hne j hj'
  · obtain rfl | rfl | rfl | rfl | rfl : j = len ∨ j = len + 1 ∨ j = len + 2 ∨ j = len + 3 ∨ j = len + 4 := by
      omega
    · rw [h0]
      decide
    · rw [h1]
      decide
    · rw [h2]
      decide
    · rw [h3]
      decide
    · rw [h4]
      decide

/-- The name behind `sys_execv`. -/
theorem execName_strlen (file : File) : (∃ len < 11, (execName file).strlen? = some len) ↔
    ∃ i < 11, file.filename.get i = 0 := by
  have hget : ∀ i < 11, (execName file).get i = file.filename.get i := fun i hi => by
    rw [execName, Bytes.get_ofFn _ (by omega), if_pos hi]
  constructor
  · rintro ⟨len, hlt, hlen⟩
    obtain ⟨-, hzero, -⟩ := Bytes.strlen?_eq_some.mp hlen
    exact ⟨len, hlt, hget len hlt ▸ hzero⟩
  · rintro ⟨i, hi, hzero⟩
    obtain ⟨len, hle, hlen⟩ := Bytes.strlen?_of_zero (b := execName file) (i := i) (by omega)
      ((hget i hi).trans hzero)
    exact ⟨len, by omega, hlen⟩

end Lengths

/-! ## The names of the pages' model

There `struct pcb` has the name as a string. -/

section Strings

/-- The characters of a string, as bytes. -/
def charBytes (s : String) : Str := s.toList.map fun c => UInt8.ofNat c.toNat

theorem length_charBytes (s : String) : (charBytes s).length = s.length := List.length_map _

theorem charBytes_append (s s' : String) : charBytes (s ++ s') = charBytes s ++ charBytes s' := by
  rw [charBytes, String.toList_append, List.map_append]
  rfl

variable {name : Bytes 16} {s : String}

/-- **`forkName` appends `_fork`** to a string of fewer than 11 characters, and refuses any
other, as `copyPcbVaddrbitmapStack0` does. -/
theorem forkName_holds (h : Holds name (charBytes s)) :
    (s.length < 11 → ∃ name', forkName name = .ok name' ∧ Holds name' (charBytes (s ++ "_fork"))) ∧
      (¬ s.length < 11 → forkName name = .error .assert) := by
  have hstr := h.strlen
  rw [length_charBytes] at hstr
  constructor
  · intro hlt
    obtain ⟨name', hname'⟩ := forkName_ok hstr hlt
    obtain ⟨-, hsame, h0, h1, h2, h3, h4, h5⟩ := forkName_get hstr hname'
    have hfork : charBytes "_fork" = [0x5F, 0x66, 0x6F, 0x72, 0x6B] := by decide
    have hlen := length_charBytes s
    rw [charBytes_append, hfork]
    refine ⟨name', hname', ?_, ?_, fun i hi => ?_⟩
    · rw [List.length_append, hlen]
      show s.length + 5 < 16
      omega
    · rw [List.mem_append]
      rintro (hm | hm)
      · exact h.nonzero hm
      · exact absurd hm (by decide)
    · by_cases hi' : i < s.length
      · rw [hsame i hi', h.chars i (by omega), List.getElem?_append_left (by omega)]
      · rw [List.getElem?_append_right (by omega), hlen]
        rw [List.length_append, hlen] at hi
        have hi5 : i ≤ s.length + 5 := hi
        obtain rfl | rfl | rfl | rfl | rfl | rfl : i = s.length ∨ i = s.length + 1 ∨ i = s.length + 2 ∨
            i = s.length + 3 ∨ i = s.length + 4 ∨ i = s.length + 5 := by omega
        · rw [h0, Nat.sub_self]
          rfl
        · rw [h1, Nat.add_sub_cancel_left]
          rfl
        · rw [h2, Nat.add_sub_cancel_left]
          rfl
        · rw [h3, Nat.add_sub_cancel_left]
          rfl
        · rw [h4, Nat.add_sub_cancel_left]
          rfl
        · rw [h5, Nat.add_sub_cancel_left]
          rfl
  · intro hge
    refine forkName_error ?_
    rintro ⟨len, hlt, hlen⟩
    cases hstr.symm.trans hlen
    exact hge hlt

end Strings

/-! ## Trees -/

namespace ProcessTree

variable {t t' : ProcessTree} {p : Nat}

theorem mayFork_iff_strlen : t.MayFork ↔ ∀ q ∈ t, ∃ len < 11, q.name.strlen? = some len := by
  constructor
  · intro h q hq
    obtain ⟨p, hp⟩ := List.mem_iff_getElem?.mp hq
    by_contra hno
    refine h.forks p ?_
    simp only [step, hp, forkName_error hno, bind, Except.bind]
  · intro h
    constructor
    · intro q hq
      obtain ⟨len, hlt, hlen⟩ := h q hq
      exact ⟨len, by omega, (Bytes.strlen?_eq_some.mp hlen).2.1⟩
    · intro p hassert
      cases hp : t[p]? with
      | none => simp [step, hp] at hassert
      | some parent =>
        obtain ⟨len, hlt, hlen⟩ := h parent (List.mem_of_getElem? hp)
        obtain ⟨name', hname'⟩ := forkName_ok hlen hlt
        simp [step, hp, hname', bind, Except.bind] at hassert

theorem mayFork_init : init.MayFork := by
  refine mayFork_iff_strlen.mpr fun q hq => ?_
  obtain rfl := List.mem_singleton.mp hq
  exact ⟨4, by decide, by decide⟩

/-- **One call** keeps the names as they should be exactly when it meets the condition. -/
theorem fits_iff (t : ProcessTree) (c : ProcessCall) (h : t.MayFork) :
    t.Fits c ↔ ∀ t', t.step c = .ok t' → t'.MayFork := by
  have hnames := mayFork_iff_strlen.mp h
  cases c with
  | fork p =>
    cases hp : t[p]? with
    | none => simp [Fits, step, hp]
    | some parent =>
      obtain ⟨len, hlt, hlen⟩ := hnames parent (List.mem_of_getElem? hp)
      obtain ⟨name', hname'⟩ := forkName_ok hlen hlt
      have hlen' := forkName_strlen hlen hname'
      have hstep : t.step (.fork p) = .ok (t ++ [⟨some p, name'⟩]) := by
        simp only [step, hp, hname', bind, Except.bind]
      constructor
      · intro hfits t' ht'
        cases hstep.symm.trans ht'
        obtain ⟨n, hn, hname⟩ := hfits parent hp
        cases hlen.symm.trans hname
        refine mayFork_iff_strlen.mpr fun q hq => ?_
        rcases List.mem_append.mp hq with hq | hq
        · exact hnames q hq
        · obtain rfl := List.mem_singleton.mp hq
          exact ⟨len + 5, by omega, hlen'⟩
      · intro hall parent' hp'
        cases hp.symm.trans hp'
        obtain ⟨n, hn, hname⟩ := mayFork_iff_strlen.mp (hall _ hstep) ⟨some p, name'⟩
          (List.mem_append_right _ (List.mem_singleton_self _))
        cases hlen'.symm.trans hname
        exact ⟨len, by omega, hlen⟩
  | execv p file entryPoint =>
    cases hp : t[p]? with
    | none =>
      have hge := List.getElem?_eq_none_iff.mp hp
      simp [Fits, step, Nat.not_lt.mpr hge]
    | some cur =>
      obtain ⟨hlt, -⟩ := List.getElem?_eq_some_iff.mp hp
      have hstep : t.step (.execv p file entryPoint) =
          .ok (if entryPoint = -1 then t else t.set p { cur with name := execName file }) := by
        simp only [step, hp]
      by_cases hentry : entryPoint = -1
      · rw [if_pos hentry] at hstep
        constructor
        · intro _ t' ht'
          cases hstep.symm.trans ht'
          exact h
        · intro _ _ hne
          exact absurd hentry hne
      · rw [if_neg hentry] at hstep
        constructor
        · intro hfits t' ht'
          cases hstep.symm.trans ht'
          refine mayFork_iff_strlen.mpr fun q hq => ?_
          rcases List.mem_or_eq_of_mem_set hq with hq | rfl
          · exact hnames q hq
          · exact (execName_strlen file).mpr (hfits hlt hentry)
        · intro hall _ _
          exact (execName_strlen file).mp (mayFork_iff_strlen.mp (hall _ hstep) _ (List.mem_set hlt _))

/-- **Any process may fork**, all through a run of forks and execs from `init`, exactly when the
calls of the run meet the condition. -/
theorem mayFork_iff (calls : List ProcessCall) :
    Always step MayFork calls init ↔ Meets step Fits calls init :=
  always_iff_meets fits_iff calls init mayFork_init

/-- The child of `init` forks, and its child cannot. -/
theorem mayFork_fails : ¬ ∀ calls, Always step MayFork calls init := by
  intro hall
  have hlen : initName.strlen? = some 4 := by decide
  obtain ⟨name, hname⟩ := forkName_ok hlen (by decide)
  have hstep : step init (.fork 0) = .ok [⟨none, initName⟩, ⟨some 0, name⟩] := by
    simp [step, init, hname, bind, Except.bind]
  have hmeets := (always_iff_meets fits_iff [.fork 0, .fork 1] init mayFork_init).mp (hall _)
  obtain ⟨hfits, -⟩ := hmeets.2 _ hstep
  obtain ⟨len, hlt, hlen'⟩ := hfits ⟨some 0, name⟩ rfl
  cases (forkName_strlen hlen hname).symm.trans hlen'
  omega

end ProcessTree

end GwOS
