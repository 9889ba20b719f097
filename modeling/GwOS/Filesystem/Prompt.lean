import Mathlib.Data.List.TakeWhile
import GwOS.Lib.Path
import GwOS.Filesystem.Walk
import GwOS.Filesystem.Integrity

/-!
# The path in the prompt

`cd` moves a pointer, `nowDir`, and edits a string, `nowPath`. `follow` says what a list of
component names leads to, one directory after the other; the prompt tells the truth when
following the components of `nowPath` from the root leads to `nowDir` (`Truthful`).

The string is right after every `cd` that the arrays of 50 and of 30 bytes have room for
(`CdFits`). The pointer is right too, unless the path has a `/` at its start or two in a row:
behind such a `/` the walk starts again from the root, and `nowDir` is left there.

- `prompt_truthful`: as long as there is room, and the part behind the last such `/` leads back to
  the root, every `cd` returns and the prompt stays true.
- `prompt_lies`: `cd /A` shows `/A` and stays in the root.

`try_cd` calls itself for every component. The stack of the machine, 4 KiB with the frame of
`shell` on it, is not part of the model.
-/

namespace GwOS

/-! ## Following components -/

/-- Where the components lead from the directory `dir`. -/
def follow (s : Fs) : FileRef → List Str → Except Fault (Option FileRef)
  | dir, [] => .ok (some dir)
  | dir, c :: cs => do
    let filename ← generateFilename c
    match ← changeDirectory s dir filename with
    | none => .ok none
    | some dir => follow s dir cs

theorem follow_append {s : Fs} {dir mid : FileRef} {cs : List Str} (ds : List Str)
    (h : follow s dir cs = .ok (some mid)) : follow s dir (cs ++ ds) = follow s mid ds := by
  induction cs generalizing dir with
  | nil =>
    cases h
    rfl
  | cons c cs ih =>
    obtain ⟨name, hname, h⟩ := bind_eq_ok.mp h
    obtain ⟨next, hnext, h⟩ := bind_eq_ok.mp h
    cases next with
    | none => cases h
    | some next =>
      rw [List.cons_append, follow, hname]
      show (changeDirectory s dir name >>= _) = _
      rw [hnext]
      exact ih h

/-- The last component, and the directory it is looked up in. -/
theorem follow_concat {s : Fs} {dir d : FileRef} {cs : List Str} {c : Str}
    (h : follow s dir (cs ++ [c]) = .ok (some d)) :
    ∃ mid name, follow s dir cs = .ok (some mid) ∧ generateFilename c = .ok name ∧
      changeDirectory s mid name = .ok (some d) := by
  induction cs generalizing dir with
  | nil =>
    obtain ⟨name, hname, h⟩ := bind_eq_ok.mp h
    obtain ⟨next, hnext, h⟩ := bind_eq_ok.mp h
    cases next with
    | none => cases h
    | some next =>
      cases h
      exact ⟨dir, name, rfl, hname, hnext⟩
  | cons b cs ih =>
    obtain ⟨name, hname, h⟩ := bind_eq_ok.mp h
    obtain ⟨next, hnext, h⟩ := bind_eq_ok.mp h
    cases next with
    | none => cases h
    | some next =>
      obtain ⟨mid, name', hmid, hrest⟩ := ih h
      refine ⟨mid, name', ?_, hrest⟩
      rw [follow, hname]
      show (changeDirectory s dir name >>= _) = _
      rw [hnext]
      exact hmid

/-! ## Names -/

/-- Capital letters stay capital letters, and neither `.` nor `/` becomes or is one. -/
theorem toUpper_facts : ∀ c : UInt8, toUpper (toUpper c) = toUpper c ∧
    (toUpper c = slash ↔ c = slash) ∧ (toUpper c = 0x2E ↔ c = 0x2E) := by
  have h : ∀ n : Fin 256, toUpper (toUpper (UInt8.ofNat n)) = toUpper (UInt8.ofNat n) ∧
      (toUpper (UInt8.ofNat n) = slash ↔ UInt8.ofNat n = slash) ∧
      (toUpper (UInt8.ofNat n) = 0x2E ↔ UInt8.ofNat n = 0x2E) := by decide +kernel
  intro c
  simpa using h ⟨c.toNat, c.toNat_lt⟩

theorem map_toUpper_twice (str : Str) : (str.map toUpper).map toUpper = str.map toUpper := by
  rw [List.map_map]
  exact List.map_congr_left fun c _ => (toUpper_facts c).1

theorem map_toUpper_eq_dots {str : Str} {n : Nat} : str.map toUpper = dots n ↔ str = dots n := by
  constructor
  · intro h
    refine List.eq_replicate_iff.mpr ⟨?_, fun c hc => ?_⟩
    · have hlen := congrArg List.length h
      simpa [dots] using hlen
    · have hm : toUpper c ∈ dots n := h ▸ List.mem_map_of_mem hc
      exact (toUpper_facts c).2.2.mp (List.eq_of_mem_replicate hm)
  · rintro rfl
    simp [dots, toUpper]

/-- The name does not depend on the case. -/
theorem generateFilename_toUpper (c : Str) : generateFilename (c.map toUpper) = generateFilename c := by
  have hne : ∀ x : UInt8, decide (toUpper x ≠ 0x2E) = decide (x ≠ 0x2E) := fun x =>
    decide_eq_decide.mpr (not_congr (toUpper_facts x).2.2)
  have htake : ((c.map toUpper).takeWhile (· ≠ 0x2E)).map toUpper =
      (c.takeWhile (· ≠ 0x2E)).map toUpper := by
    rw [List.takeWhile_map, map_toUpper_twice]
    exact congrArg (fun p => (c.takeWhile p).map toUpper) (funext hne)
  have hdrop : (((c.map toUpper).dropWhile (· ≠ 0x2E)).filter (· ≠ 0x2E)).map toUpper =
      ((c.dropWhile (· ≠ 0x2E)).filter (· ≠ 0x2E)).map toUpper := by
    rw [List.dropWhile_map, List.filter_map, map_toUpper_twice]
    have hp : ((fun x => decide (x ≠ 0x2E)) ∘ toUpper : UInt8 → Bool) = fun x => decide (x ≠ 0x2E) :=
      funext hne
    rw [hp]
  rw [generateFilename, generateFilename, htake, hdrop]
  simp only [map_toUpper_eq_dots]

/-- Only `.` and `..` give a name that starts with a dot. -/
theorem generateFilename_ne_dot {c : Str} {name : Name} (h1 : c ≠ dots 1) (h2 : c ≠ dots 2)
    (h : generateFilename c = .ok name) : name ≠ dotName 1 ∧ name ≠ dotName 2 := by
  rw [generateFilename, if_neg h1, if_neg h2] at h
  obtain ⟨fst, hfst, h⟩ := bind_eq_ok.mp h
  obtain ⟨ext, -, h⟩ := bind_eq_ok.mp h
  cases h
  have hstore : fst = (c.takeWhile (· ≠ 0x2E)).map toUpper := by
    rw [store] at hfst
    split at hfst
    · cases hfst
      rfl
    · cases hfst
  have hget : (Bytes.ofFn (fun i => if i < 8 then charOrBlank fst i else charOrBlank ext (i - 8)) :
      Name).get 0 = charOrBlank fst 0 := Bytes.get_ofFn _ (by decide)
  have hne : charOrBlank fst 0 ≠ 0x2E := by
    rw [hstore, charOrBlank]
    cases hw : c.takeWhile (· ≠ 0x2E) with
    | nil => decide
    | cons x xs =>
      have hx : x ≠ 0x2E := by
        have hm : x ∈ c.takeWhile (· ≠ 0x2E) := by
          rw [hw]
          exact List.mem_cons_self
        simpa using List.mem_takeWhile_imp hm
      simpa using fun he => hx ((toUpper_facts x).2.2.mp he)
  constructor
  · intro he
    rw [he] at hget
    exact hne (hget.symm.trans (by decide))
  · intro he
    rw [he] at hget
    exact hne (hget.symm.trans (by decide))

/-- Both parts of the name, in front of its first dot and behind it, have at most 30 characters. -/
def NameFits (name : Str) : Prop :=
  (name.takeWhile (· ≠ 0x2E)).length ≤ 30 ∧
    ((name.dropWhile (· ≠ 0x2E)).filter (· ≠ 0x2E)).length ≤ 30

instance (name : Str) : Decidable (NameFits name) := inferInstanceAs (Decidable (_ ∧ _))

theorem nameFits_dots (k : Nat) : NameFits (dots k) := by
  cases k with
  | zero => exact ⟨Nat.zero_le _, Nat.zero_le _⟩
  | succ k => simp [NameFits, dots, List.replicate_succ]

/-- These are the names of which `generate_filename` makes a file name. -/
theorem nameFits_iff (str : Str) : NameFits str ↔ ∃ name, generateFilename str = .ok name := by
  rw [generateFilename]
  by_cases h1 : str = dots 1
  · rw [if_pos h1, h1]
    exact iff_of_true (nameFits_dots 1) ⟨_, rfl⟩
  by_cases h2 : str = dots 2
  · rw [if_neg h1, if_pos h2, h2]
    exact iff_of_true (nameFits_dots 2) ⟨_, rfl⟩
  rw [if_neg h1, if_neg h2, NameFits]
  constructor
  · rintro ⟨hfst, hext⟩
    refine ⟨_, bind_eq_ok.mpr ⟨_, store_ok ?_, bind_eq_ok.mpr ⟨_, store_ok ?_, rfl⟩⟩⟩
    · rw [List.length_map]
      omega
    · rw [List.length_map]
      omega
  · rintro ⟨name, hname⟩
    obtain ⟨fst, hfst, hname⟩ := bind_eq_ok.mp hname
    obtain ⟨ext, hext, -⟩ := bind_eq_ok.mp hname
    have hf := (store_eq hfst).2
    have he := (store_eq hext).2
    rw [List.length_map] at hf he
    exact ⟨Nat.le_of_lt_succ hf, Nat.le_of_lt_succ he⟩

/-- A name of at most 30 characters fits. -/
theorem NameFits.of_length {c : Str} (h : c.length ≤ 30) : NameFits c := by
  have hfst := (List.takeWhile_sublist (· ≠ 0x2E) (l := c)).length_le
  have hext := (List.dropWhile_sublist (· ≠ 0x2E) (l := c)).length_le
  have hfilter := List.length_filter_le (· ≠ 0x2E) (c.dropWhile (· ≠ 0x2E))
  exact ⟨by omega, by omega⟩

/-! ## Directories of the tree -/

section Tree

variable {s : Fs} {f : Forest (Fin 100)} {dir d : FileRef} {name : Name}

/-- The components of a path as the prompt has it: names, neither `.` nor `..`. -/
def Plain (c : Str) : Prop := Pathname.Proper slash c ∧ c ≠ dots 1 ∧ c ≠ dots 2

theorem MemTree.follow_hasRef (h : MemTree s f) {cs : List Str} (hcs : ∀ c ∈ cs, Plain c)
    (hdir : HasRef f dir) (hd : follow s dir cs = .ok (some d)) : HasRef f d := by
  induction cs generalizing dir with
  | nil =>
    cases hd
    exact hdir
  | cons c cs ih =>
    obtain ⟨name, hname, hd⟩ := bind_eq_ok.mp hd
    obtain ⟨next, hnext, hd⟩ := bind_eq_ok.mp hd
    cases next with
    | none => cases hd
    | some next =>
      have hc := hcs c List.mem_cons_self
      have hne := generateFilename_ne_dot hc.2.1 hc.2.2 hname
      exact ih (fun x hx => hcs x (List.mem_cons_of_mem _ hx))
        (h.changeDirectory_child hdir hne hnext).1 hd

/-! ## One component -/

/-- The path is the one that leads from the root to `dir`. -/
structure Walked (s : Fs) (dir : FileRef) (path : Str) (cs : List Str) : Prop where
  path : path = Pathname.join slash cs
  plain : ∀ c ∈ cs, Plain c
  leads : follow s .rootfile cs = .ok (some dir)

theorem Walked.root (s : Fs) : Walked s .rootfile [slash] [] := ⟨rfl, nofun, rfl⟩

theorem beforeLast_append {x c : Str} (hc : slash ∉ c) : beforeLast (x ++ slash :: c) = x := by
  have hall : ∀ b ∈ c.reverse, decide (b ≠ slash) = true := by
    intro b hb
    rw [List.mem_reverse] at hb
    exact decide_eq_true fun he => hc (he ▸ hb)
  rw [beforeLast, List.reverse_append, List.reverse_cons, List.append_assoc,
    List.dropWhile_append_of_pos hall]
  simp

/-- `fa_dir_path` takes the last component off. -/
theorem faDirPath_join {cs : List Str} {c : Str} (hc : slash ∉ c) :
    faDirPath (Pathname.join slash (cs ++ [c])) = Pathname.join slash cs := by
  rw [faDirPath, Pathname.join_concat, beforeLast_append hc]
  cases cs with
  | nil => rfl
  | cons d ds => exact if_neg (by simp)

/-- The components of the path in the prompt, behind one component more of a `cd`. -/
def entered (cs : List Str) (c : Str) : List Str :=
  if c = dots 2 then cs.dropLast else if c = dots 1 then cs else cs ++ [c.map toUpper]

/-- The string that `try_cd` puts together is the path with the component behind it. -/
theorem join_append {cs : List Str} (hcs : ∀ c ∈ cs, Pathname.Proper slash c) (c : Str) :
    (if Pathname.join slash cs = [slash] then Pathname.join slash cs
      else Pathname.join slash cs ++ [slash]) ++ c = Pathname.join slash (cs ++ [c]) := by
  rw [Pathname.join_concat]
  cases cs with
  | nil => rfl
  | cons b bs =>
    have hne : Pathname.join slash (b :: bs) ≠ [slash] := fun he =>
      List.cons_ne_nil _ _ ((Pathname.join_eq_sep hcs).mp he)
    rw [if_neg hne]
    simp [Pathname.join]

/-- The path is written down when there is room for it. -/
theorem Walked.enter_returns {path c : Str} {cs : List Str} (hw : Walked s dir path cs)
    (hroom : (Pathname.join slash (entered cs c)).length < 50) :
    ∃ path', enterPath path (c.map toUpper) = .ok path' := by
  rw [entered] at hroom
  rw [enterPath]
  simp only [map_toUpper_eq_dots]
  by_cases h2 : c = dots 2
  · exact ⟨_, if_pos h2⟩
  · rw [if_neg h2] at hroom ⊢
    by_cases h1 : c = dots 1
    · exact ⟨_, if_pos h1⟩
    · rw [if_neg h1] at hroom ⊢
      rw [hw.path, join_append fun c hc => (hw.plain c hc).1]
      exact ⟨_, store_ok hroom⟩

/-- One component of a `cd` keeps pointer and path together. -/
theorem Walked.enter (h : MemTree s f) (hroot : s.rootfile.fa = none) {path path' c : Str}
    {cs : List Str} (hw : Walked s dir path cs) (hc : Pathname.Proper slash c)
    (hname : generateFilename c = .ok name) (hcd : changeDirectory s dir name = .ok (some d))
    (henter : enterPath path (c.map toUpper) = .ok path') : Walked s d path' (entered cs c) := by
  rw [entered]
  rw [enterPath] at henter
  simp only [map_toUpper_eq_dots] at henter
  by_cases h2 : c = dots 2
  · -- `..`: the last component goes
    rw [if_pos h2] at henter ⊢
    cases henter
    have hnm : name = dotName 2 := by
      have hdot : generateFilename (dots 2) = .ok (dotName 2) := rfl
      rw [h2, hdot] at hname
      exact (Except.ok.inj hname).symm
    have hfa : (s.file dir).fa = some d := by
      have hne : dotName 2 ≠ dotName 1 := by decide
      rw [hnm, changeDirectory, if_neg hne, if_pos rfl] at hcd
      exact Except.ok.inj hcd
    rcases List.eq_nil_or_concat cs with rfl | ⟨cs', b, rfl⟩
    · have hdir : dir = .rootfile := (Option.some.inj (Except.ok.inj hw.leads)).symm
      rw [hdir, show s.file .rootfile = s.rootfile from rfl, hroot] at hfa
      cases hfa
    · rw [List.concat_eq_append] at hw ⊢
      have hb := hw.plain b (List.mem_append_right _ List.mem_cons_self)
      have hcs' : ∀ x ∈ cs', Plain x := fun x hx => hw.plain x (List.mem_append_left _ hx)
      obtain ⟨mid, bname, hmid, hbname, hbcd⟩ := follow_concat hw.leads
      have href := h.follow_hasRef hcs' (show HasRef f .rootfile from trivial) hmid
      have hchild := (h.changeDirectory_child href
        (generateFilename_ne_dot hb.2.1 hb.2.2 hbname) hbcd).2
      obtain rfl : mid = d := Option.some.inj (hchild.symm.trans hfa)
      rw [List.dropLast_concat]
      refine ⟨?_, hcs', hmid⟩
      rw [hw.path, faDirPath_join hb.1.2]
  · rw [if_neg h2] at henter ⊢
    by_cases h1 : c = dots 1
    · -- `.`: nothing changes
      rw [if_pos h1] at henter ⊢
      cases henter
      have hnm : name = dotName 1 := by
        have hdot : generateFilename (dots 1) = .ok (dotName 1) := rfl
        rw [h1, hdot] at hname
        exact (Except.ok.inj hname).symm
      rw [hnm, changeDirectory, if_pos rfl] at hcd
      obtain rfl : dir = d := Option.some.inj (Except.ok.inj hcd)
      exact hw
    · -- a name: one component more
      rw [if_neg h1] at henter ⊢
      obtain ⟨rfl, -⟩ := store_eq henter
      have hupper : Plain (c.map toUpper) := by
        refine ⟨⟨by simpa using hc.1, fun hm => ?_⟩, ?_, ?_⟩
        · obtain ⟨x, hx, he⟩ := List.mem_map.mp hm
          exact hc.2 ((toUpper_facts x).2.1.mp he ▸ hx)
        · rwa [ne_eq, map_toUpper_eq_dots]
        · rwa [ne_eq, map_toUpper_eq_dots]
      refine ⟨?_, ?_, ?_⟩
      · rw [hw.path, join_append fun x hx => (hw.plain x hx).1]
      · intro x hx
        rcases List.mem_append.mp hx with hx | hx
        · exact hw.plain x hx
        · rw [List.mem_singleton.mp hx]
          exact hupper
      · rw [follow_append _ hw.leads, follow, generateFilename_toUpper, hname]
        show (changeDirectory s dir name >>= _) = _
        rw [hcd]
        rfl

/-! ## A whole path -/

/-- What stands behind the last `/` that `try_cd` finds in front of a component, if it finds
one. `start` says that a component starts here. -/
def lastAbsolute : Bool → Str → Option Str
  | _, [] => none
  | start, c :: p =>
    if c = slash then
      if start then some ((lastAbsolute true p).getD p) else lastAbsolute true p
    else lastAbsolute false p

theorem lastAbsolute_append {fst : Str} (hfst : slash ∉ fst) (res : Str) :
    lastAbsolute false (fst ++ slash :: res) = lastAbsolute true res := by
  induction fst with
  | nil => simp [lastAbsolute]
  | cons c fst ih =>
    obtain ⟨hc, hrest⟩ := not_or.mp (List.mem_cons.not.mp hfst)
    rw [List.cons_append, lastAbsolute, if_neg (Ne.symm hc)]
    exact ih hrest

theorem lastAbsolute_none {fst : Str} (hfst : slash ∉ fst) : lastAbsolute false fst = none := by
  induction fst with
  | nil => rfl
  | cons c fst ih =>
    obtain ⟨hc, hrest⟩ := not_or.mp (List.mem_cons.not.mp hfst)
    rw [lastAbsolute, if_neg (Ne.symm hc)]
    exact ih hrest

/-- `divede_path` takes the first component off. -/
theorem dividePath_spec {c : UInt8} {p fst res : Str} (hc : c ≠ slash)
    (h : dividePath (c :: p) = (fst, res)) : Pathname.Proper slash fst ∧
      Pathname.components slash (c :: p) = fst :: Pathname.components slash res ∧
      lastAbsolute true (c :: p) = lastAbsolute true res := by
  have hfst : fst = c :: p.takeWhile (· ≠ slash) := by
    have hsplit := congrArg Prod.fst h
    simpa [dividePath, hc] using hsplit.symm
  have hres : res = (p.dropWhile (· ≠ slash)).drop 1 := by
    have hsplit := congrArg Prod.snd h
    simpa [dividePath, hc] using hsplit.symm
  have htail : slash ∉ p.takeWhile (· ≠ slash) := fun hm => by
    simpa using List.mem_takeWhile_imp hm
  have hproper : Pathname.Proper slash fst := by
    rw [hfst]
    exact ⟨List.cons_ne_nil _ _, fun hm => (List.mem_cons.mp hm).elim (fun he => hc he.symm) htail⟩
  have hlast : lastAbsolute true (c :: p) = lastAbsolute false p := by
    rw [lastAbsolute, if_neg hc]
  refine ⟨hproper, ?_⟩
  cases hd : p.dropWhile (· ≠ slash) with
  | nil =>
    -- the last component of the path
    have hp : p.takeWhile (· ≠ slash) = p := by
      have happ := List.takeWhile_append_dropWhile (p := (· ≠ slash)) (l := p)
      rwa [hd, List.append_nil] at happ
    rw [hp] at hfst htail
    rw [hlast, lastAbsolute_none htail, hres, hd, ← hfst]
    exact ⟨Pathname.components_single hproper, rfl⟩
  | cons b q =>
    have hb : b = slash := by
      have hhead := List.head?_dropWhile_not (fun x => decide (x ≠ slash)) p
      rw [hd] at hhead
      simpa using hhead
    have hp : p = p.takeWhile (· ≠ slash) ++ slash :: q := by
      have happ := List.takeWhile_append_dropWhile (p := (· ≠ slash)) (l := p)
      rw [hd, hb] at happ
      exact happ.symm
    have hq : res = q := by
      rw [hres, hd]
      rfl
    rw [hlast, hq]
    constructor
    · rw [show c :: p = fst ++ slash :: q by rw [hfst, List.cons_append, ← hp]]
      exact Pathname.components_cons hproper q
    · rw [hp]
      exact lastAbsolute_append htail q

/-- `divede_path` cuts the path behind its first component. -/
theorem dividePath_split {c : UInt8} {p fst res : Str} (hc : c ≠ slash)
    (h : dividePath (c :: p) = (fst, res)) : Pathname.Proper slash fst ∧
      (c :: p = fst ++ slash :: res ∨ (c :: p = fst ∧ res = [])) := by
  refine ⟨(dividePath_spec hc h).1, ?_⟩
  have hfst : fst = (c :: p).takeWhile (· ≠ slash) := (congrArg Prod.fst h).symm
  have hres : res = ((c :: p).dropWhile (· ≠ slash)).drop 1 := (congrArg Prod.snd h).symm
  have happ := List.takeWhile_append_dropWhile (p := (· ≠ slash)) (l := c :: p)
  cases hd : (c :: p).dropWhile (· ≠ slash) with
  | nil =>
    rw [hd, List.append_nil] at happ
    rw [hd] at hres
    exact .inr ⟨by rw [hfst, happ], hres⟩
  | cons b q =>
    have hb : b = slash := by
      have hhead := List.head?_dropWhile_not (fun x => decide (x ≠ slash)) (c :: p)
      rw [hd] at hhead
      simpa using hhead
    rw [hd] at hres
    refine .inl ?_
    rw [hd, hb] at happ
    rw [hfst, hres]
    exact happ.symm

/-- The pieces between the `/`s: the first, and those of the rest. -/
theorem dividePath_pieces {c : UInt8} {p fst res : Str} (hc : c ≠ slash)
    (h : dividePath (c :: p) = (fst, res)) :
    ((c :: p).splitOn slash = [fst] ∧ res = []) ∨
      (c :: p).splitOn slash = fst :: res.splitOn slash := by
  obtain ⟨hproper, hsplit | ⟨hsplit, hres⟩⟩ := dividePath_split hc h
  · refine .inr ?_
    rw [hsplit, List.splitOn_append_cons_self, List.splitOn_eq_singleton hproper.2]
    rfl
  · exact .inl ⟨by rw [hsplit, List.splitOn_eq_singleton hproper.2], hres⟩

/-- The arrays hold what `try_cd` writes along the pieces of a path, from the directory `dir` with the
components `cs` in the prompt: each piece is a name that fits, and each that is found leaves the
prompt with at most 49 characters. An empty piece starts again from the root. -/
def WayFits (s : Fs) : List Str → FileRef → List Str → Prop
  | [], _, _ => True
  | [[]], _, _ => True
  | [] :: pieces, _, _ => WayFits s pieces .rootfile []
  | c :: pieces, dir, cs => NameFits c ∧ ∀ name d, generateFilename c = .ok name →
      changeDirectory s dir name = .ok (some d) →
      (Pathname.join slash (entered cs c)).length < 50 ∧ WayFits s pieces d (entered cs c)

theorem wayFits_cons {c : Str} {pieces cs : List Str} (hc : c ≠ [])
    (h : WayFits s (c :: pieces) dir cs) : NameFits c ∧ ∀ name d, generateFilename c = .ok name →
      changeDirectory s dir name = .ok (some d) →
      (Pathname.join slash (entered cs c)).length < 50 ∧ WayFits s pieces d (entered cs c) := by
  cases c with
  | nil => exact absurd rfl hc
  | cons b c => exact h

/-- The induction of `try_cd`, on its fuel: it returns when the arrays hold what it writes. -/
theorem MemTree.tryCdLoop_fits (h : MemTree s f) (hroot : s.rootfile.fa = none) {n : Nat}
    {p path : Str} {cs : List Str} (hdir : HasRef f dir) (hn : p.length < n)
    (hw : Walked s dir path cs) (hfits : WayFits s (p.splitOn slash) dir cs) :
    ∃ r, tryCdLoop s n p dir path = .ok r := by
  induction n generalizing p dir path cs with
  | zero => omega
  | succ n ih =>
    cases p with
    | nil => exact ⟨_, rfl⟩
    | cons c p =>
      rw [List.length_cons] at hn
      rw [tryCdLoop]
      by_cases hc : c = slash
      · rw [if_pos hc]
        have hrest : WayFits s (p.splitOn slash) .rootfile [] := by
          have hsplit := List.splitOn_append_cons_self (a := slash) [] p
          rw [List.nil_append, List.splitOn_nil] at hsplit
          rw [hc, hsplit] at hfits
          cases hp : p.splitOn slash with
          | nil => trivial
          | cons q qs =>
            rw [hp] at hfits
            exact hfits
        have hroot' : HasRef f .rootfile := trivial
        obtain ⟨r, hr⟩ := ih hroot' (by omega) (.root s) hrest
        exact ⟨_, bind_eq_ok.mpr ⟨r, hr, rfl⟩⟩
      · rw [if_neg hc]
        generalize hdiv : dividePath (c :: p) = parts
        obtain ⟨fst, res⟩ := parts
        obtain ⟨hproper, -, -⟩ := dividePath_spec hc hdiv
        -- what `WayFits` says behind the first piece, it says of the rest of the path
        obtain ⟨hname, hnext⟩ : NameFits fst ∧ ∀ name d, generateFilename fst = .ok name →
            changeDirectory s dir name = .ok (some d) →
            (Pathname.join slash (entered cs fst)).length < 50 ∧
              WayFits s (res.splitOn slash) d (entered cs fst) := by
          rcases dividePath_pieces hc hdiv with ⟨hone, hnil⟩ | hmore
          · rw [hone] at hfits
            obtain ⟨hfst, hway⟩ := wayFits_cons hproper.1 hfits
            refine ⟨hfst, fun name d hname hcd => ⟨(hway name d hname hcd).1, ?_⟩⟩
            rw [hnil, List.splitOn_nil]
            trivial
          · rw [hmore] at hfits
            exact wayFits_cons hproper.1 hfits
        obtain ⟨name, hgen⟩ := (nameFits_iff fst).mp hname
        obtain ⟨next, hcd⟩ := h.changeDirectory_returns hdir name
        cases next with
        | none => exact ⟨_, bind_eq_ok.mpr ⟨name, hgen, bind_eq_ok.mpr ⟨none, hcd, rfl⟩⟩⟩
        | some d =>
          obtain ⟨hroom, hway⟩ := hnext name d hgen hcd
          obtain ⟨path', henter⟩ := hw.enter_returns hroom
          have hlt : res.length < n := by
            have hres : ((c :: p).dropWhile (· ≠ slash)).drop 1 = res := congrArg Prod.snd hdiv
            have hdrop := (List.dropWhile_sublist (· ≠ slash) (l := c :: p)).length_le
            rw [List.length_cons] at hdrop
            rw [← hres, List.length_drop]
            omega
          obtain ⟨r, hr⟩ := ih (h.changeDirectory_hasRef hroot hdir hcd) hlt
            (hw.enter h hroot hproper hgen hcd henter) hway
          exact ⟨r, bind_eq_ok.mpr ⟨name, hgen, bind_eq_ok.mpr ⟨some d, hcd,
            bind_eq_ok.mpr ⟨path', henter, hr⟩⟩⟩⟩

/-- `try_cd` with the path `p` from `dir` has the pointer at `d` when the path it has
written leads to `w`. -/
def Ends (s : Fs) (dir : FileRef) (p : Str) (d w : FileRef) : Prop :=
  match lastAbsolute true p with
  | none => d = w ∧ follow s dir (Pathname.components slash p) = .ok (some w)
  | some rest => d = .rootfile ∧
      follow s .rootfile (Pathname.components slash rest) = .ok (some w)

theorem Ends.absolute {p : Str} {w : FileRef} (h : Ends s .rootfile p d w) :
    Ends s dir (slash :: p) .rootfile w := by
  rw [Ends] at h
  rw [Ends, lastAbsolute, if_pos rfl, if_pos rfl]
  refine ⟨rfl, ?_⟩
  cases hl : lastAbsolute true p with
  | none =>
    rw [hl] at h
    exact h.2
  | some rest =>
    rw [hl] at h
    exact h.2

/-- The induction of `try_cd`, on its fuel: where the pointer ends, and that the path that is
written down goes on leading to a directory from the root. -/
theorem tryCdLoop_ends (h : MemTree s f) (hroot : s.rootfile.fa = none) {n : Nat}
    {p path path' : Str} (hcd : tryCdLoop s n p dir path = .ok (true, d, path')) :
    ∃ w, Ends s dir p d w ∧ ((∃ cs, Walked s dir path cs) → ∃ cs, Walked s w path' cs) := by
  induction n generalizing p dir path d with
  | zero => cases hcd
  | succ n ih =>
    cases p with
    | nil =>
      cases hcd
      refine ⟨dir, ?_, id⟩
      rw [Ends, lastAbsolute]
      exact ⟨rfl, rfl⟩
    | cons c p =>
      unfold tryCdLoop at hcd
      by_cases hc : c = slash
      · rw [if_pos hc] at hcd
        obtain ⟨⟨ok, d', path''⟩, hrec, hcd⟩ := bind_eq_ok.mp hcd
        cases hcd
        obtain ⟨w, hends, hw⟩ := ih hrec
        rw [hc]
        exact ⟨w, hends.absolute, fun _ => hw ⟨[], .root s⟩⟩
      · rw [if_neg hc] at hcd
        generalize hdiv : dividePath (c :: p) = parts at hcd
        obtain ⟨fst, res⟩ := parts
        obtain ⟨hproper, hcomp, hlast⟩ := dividePath_spec hc hdiv
        obtain ⟨name, hname, hcd⟩ := bind_eq_ok.mp hcd
        obtain ⟨next, hnext, hcd⟩ := bind_eq_ok.mp hcd
        cases next with
        | none => cases hcd
        | some next =>
          obtain ⟨path1, henter, hcd⟩ := bind_eq_ok.mp hcd
          obtain ⟨w, hends, hw⟩ := ih hcd
          refine ⟨w, ?_, ?_⟩
          · rw [Ends] at hends ⊢
            rw [hlast, hcomp, follow, hname]
            simp only [Except.bind, bind, hnext]
            exact hends
          · rintro ⟨cs, hcs⟩
            exact hw ⟨_, hcs.enter h hroot hproper hname hnext henter⟩

end Tree

/-! ## Letters and the last slash -/

/-- Splitting behind a function that keeps the separator apart. -/
theorem splitOn_map {α β : Type*} [BEq α] [LawfulBEq α] [BEq β] [LawfulBEq β] {g : α → β} {a : α}
    {b : β} (h : ∀ x, g x = b ↔ x = a) (l : List α) :
    (l.map g).splitOn b = (l.splitOn a).map (List.map g) := by
  induction l with
  | nil => rfl
  | cons x l ih =>
    rw [List.map_cons, List.splitOn_cons_eq_if_modifyHead, List.splitOn_cons_eq_if_modifyHead, ih]
    obtain ⟨y, ys, hys⟩ := List.exists_cons_of_ne_nil (List.splitOn_ne_nil a l)
    by_cases hx : x = a
    · rw [if_pos (beq_iff_eq.mpr ((h x).mpr hx)), if_pos (beq_iff_eq.mpr hx)]
      rfl
    · rw [if_neg (beq_iff_eq.not.mpr fun he => hx ((h x).mp he)), if_neg (beq_iff_eq.not.mpr hx),
        hys]
      rfl

theorem follow_toUpper {s : Fs} {dir : FileRef} (cs : List Str) :
    follow s dir (cs.map (List.map toUpper)) = follow s dir cs := by
  induction cs generalizing dir with
  | nil => rfl
  | cons c cs ih =>
    rw [List.map_cons, follow, follow, generateFilename_toUpper]
    simp only [ih]

/-- `standard_dir_path` changes nothing that is looked up. -/
theorem follow_standardDirPath {s : Fs} {dir : FileRef} (p : Str) :
    follow s dir (Pathname.components slash (standardDirPath p)) =
      follow s dir (Pathname.components slash p) := by
  have hupper : ∀ q : Str, Pathname.components slash (q.map toUpper) =
      (Pathname.components slash q).map (List.map toUpper) := by
    intro q
    rw [Pathname.components, splitOn_map fun x => (toUpper_facts x).2.1, List.filter_map,
      Pathname.components]
    refine congrArg (List.map _) (List.filter_congr fun c _ => ?_)
    simp
  rw [standardDirPath]
  split
  · rfl
  · split
    · next hlast =>
      obtain ⟨ys, rfl⟩ := List.getLast?_eq_some_iff.mp hlast
      rw [List.dropLast_concat, hupper, follow_toUpper, Pathname.components_append,
        Pathname.components_nil, List.append_nil]
    · rw [hupper, follow_toUpper]

/-! ## The shell -/

theorem findSib_congr {s s' : Fs} (hfile : ∀ r, s'.file r = s.file r) (name : Name) (n : Nat)
    (p : Option FileRef) : findSib s' name n p = findSib s name n p := by
  induction n generalizing p with
  | zero => rfl
  | succ n ih =>
    cases p with
    | none => rfl
    | some r => rw [findSib, findSib, hfile, ih]

theorem follow_congr {s s' : Fs} (hfile : ∀ r, s'.file r = s.file r) (cs : List Str)
    (dir : FileRef) : follow s' dir cs = follow s dir cs := by
  have hcd : ∀ d name, changeDirectory s' d name = changeDirectory s d name := by
    intro d name
    rw [changeDirectory, changeDirectory, hfile, findSib_congr hfile]
  induction cs generalizing dir with
  | nil => rfl
  | cons c cs ih =>
    rw [follow, follow]
    simp only [hcd, ih]

/-- The path in the prompt leads from the root to the current directory. -/
def Truthful (sh : Shell) : Prop :=
  follow sh.fs .rootfile (Pathname.components slash sh.nowPath) = .ok (some sh.nowDir)

/-- Behind the last `/` that starts again from the root, the path leads nowhere else. -/
def BackToRoot (s : Fs) (path : Str) : Prop :=
  ∀ rest, lastAbsolute true (standardDirPath path) = some rest →
    ∀ d, follow s .rootfile (Pathname.components slash rest) = .ok (some d) → d = .rootfile

/-- The arrays hold the word behind `cd`, and what `try_cd` writes. -/
def CdFits (sh : Shell) (path : Str) : Prop :=
  path.length < 50 ∧ WayFits sh.fs ((standardDirPath path).splitOn slash) sh.nowDir
    (Pathname.components slash sh.nowPath)

/-- Every `cd` of the run has room, and leads back to the root behind the last `/` it starts again
from. -/
def HonestRun : List Str → Shell → Prop
  | [], _ => True
  | path :: paths, sh => CdFits sh path ∧ BackToRoot sh.fs path ∧
    ∀ sh', sh.step (.cd path) = .ok sh' → HonestRun paths sh'

/-- What holds at every prompt: the path leads to the current directory, and the files are
those of `s`. -/
def AtPrompt (s : Fs) (sh : Shell) : Prop :=
  (∀ r, sh.fs.file r = s.file r) ∧ ∃ cs, Walked s sh.nowDir sh.nowPath cs

theorem AtPrompt.truthful {s : Fs} {sh : Shell} (h : AtPrompt s sh) : Truthful sh := by
  obtain ⟨hfile, cs, hw⟩ := h
  rw [Truthful, follow_congr hfile, hw.path,
    Pathname.components_join fun c hc => (hw.plain c hc).1]
  exact hw.leads

theorem AtPrompt.memTree {s : Fs} {sh : Shell} {f : Forest (Fin 100)} (h : AtPrompt s sh)
    (ht : MemTree s f) (hroot : s.rootfile.fa = none) :
    MemTree sh.fs f ∧ sh.fs.rootfile.fa = none := by
  have hrootfile : sh.fs.rootfile = s.rootfile := h.1 .rootfile
  refine ⟨ht.congr (congrArg File.fstSon hrootfile) fun i _ => ?_, hrootfile ▸ hroot⟩
  rw [show sh.fs.filelist i = s.filelist i from h.1 (.slot i)]
  exact .refl _

/-- The walk, as it is at the prompt. -/
theorem AtPrompt.walked {s : Fs} {sh : Shell} (h : AtPrompt s sh) :
    Walked sh.fs sh.nowDir sh.nowPath (Pathname.components slash sh.nowPath) := by
  obtain ⟨hfile, cs, hw⟩ := h
  have hcs : Pathname.components slash sh.nowPath = cs := by
    rw [hw.path, Pathname.components_join fun c hc => (hw.plain c hc).1]
  rw [hcs]
  exact ⟨hw.path, hw.plain, (follow_congr hfile _ _).trans hw.leads⟩

/-- A `cd` that the arrays have room for comes back to the prompt. -/
theorem AtPrompt.returns {s : Fs} {sh : Shell} {f : Forest (Fin 100)} {path : Str}
    (h : AtPrompt s sh) (ht : MemTree s f) (hroot : s.rootfile.fa = none) (hfits : CdFits sh path) :
    ∃ sh', sh.step (.cd path) = .ok sh' := by
  obtain ⟨hlen, hway⟩ := hfits
  obtain ⟨ht', hroot'⟩ := h.memTree ht hroot
  have hw := h.walked
  have hroot0 : HasRef f .rootfile := trivial
  obtain ⟨⟨ok, d, path'⟩, hr⟩ := ht'.tryCdLoop_fits hroot' (ht'.follow_hasRef hw.plain hroot0 hw.leads)
    (Nat.lt_succ_self _) hw hway
  cases ok with
  | false =>
    exact ⟨_, bind_eq_ok.mpr ⟨_, bind_eq_ok.mpr ⟨path, store_ok hlen, bind_eq_ok.mpr ⟨_, hr, rfl⟩⟩, rfl⟩⟩
  | true =>
    exact ⟨_, bind_eq_ok.mpr ⟨_, bind_eq_ok.mpr ⟨path, store_ok hlen, bind_eq_ok.mpr ⟨_, hr, rfl⟩⟩, rfl⟩⟩

/-- One `cd` whose path leads back to the root behind its last restart. -/
theorem AtPrompt.cd {s : Fs} {sh sh' : Shell} {f : Forest (Fin 100)} {path : Str}
    (h : AtPrompt s sh) (ht : MemTree s f) (hroot : s.rootfile.fa = none)
    (hback : BackToRoot s path) (hok : sh.cd path = .ok sh') : AtPrompt s sh' := by
  obtain ⟨hfile, cs, hw⟩ := h
  have hwsh : Walked sh.fs sh.nowDir sh.nowPath cs :=
    ⟨hw.path, hw.plain, (follow_congr hfile _ _).trans hw.leads⟩
  obtain ⟨ht', hroot'⟩ := AtPrompt.memTree ⟨hfile, cs, hw⟩ ht hroot
  rw [Shell.cd] at hok
  obtain ⟨path0, hstore, hcd⟩ := bind_eq_ok.mp hok
  obtain ⟨rfl, -⟩ := store_eq hstore
  obtain ⟨⟨ok, d, path'⟩, htry, hend⟩ := bind_eq_ok.mp hcd
  cases ok with
  | false =>
    cases hend
    exact ⟨fun r => (Fs.file_printf _ _ r).trans (hfile r), cs, hw⟩
  | true =>
    cases hend
    refine ⟨fun r => (Fs.file_printf _ _ r).trans (hfile r), ?_⟩
    obtain ⟨w, hends, hwalk⟩ := tryCdLoop_ends ht' hroot' htry
    obtain ⟨cs', hw'⟩ := hwalk ⟨cs, hwsh⟩
    have hleads : Walked s w path' cs' :=
      ⟨hw'.path, hw'.plain, (follow_congr hfile _ _).symm.trans hw'.leads⟩
    suffices hdw : d = w from ⟨cs', hdw ▸ hleads⟩
    rw [Ends] at hends
    split at hends
    · exact hends.1
    case h_2 rest hrest =>
      -- the pointer is at the root, and so does the path lead there
      have hw0 := hback rest hrest w ((follow_congr hfile _ _).symm.trans hends.2)
      exact hends.1.trans hw0.symm

theorem AtPrompt.step {s : Fs} {sh sh' : Shell} {f : Forest (Fin 100)} {path : Str}
    (h : AtPrompt s sh) (ht : MemTree s f) (hroot : s.rootfile.fa = none)
    (hback : BackToRoot s path) (hok : sh.step (.cd path) = .ok sh') : AtPrompt s sh' := by
  obtain ⟨sh1, hcd, hok⟩ := bind_eq_ok.mp hok
  obtain ⟨hfile, hw⟩ := h.cd ht hroot hback hcd
  cases hok
  exact ⟨fun r => (Fs.file_printf _ _ r).trans (hfile r), hw⟩

/-- A `cd` that reports failure changes neither the directory nor the path. -/
theorem cd_failed {sh sh' : Shell} {path : Str} (hok : sh.cd path = .ok sh')
    (hfail : sh'.fs.console = sh.fs.console ++ ["Failed to change directory.\n"]) :
    sh'.nowDir = sh.nowDir ∧ sh'.nowPath = sh.nowPath := by
  rw [Shell.cd] at hok
  obtain ⟨path0, -, hok⟩ := bind_eq_ok.mp hok
  obtain ⟨⟨ok, d, path'⟩, -, hok⟩ := bind_eq_ok.mp hok
  cases ok with
  | false =>
    cases hok
    exact ⟨rfl, rfl⟩
  | true =>
    cases hok
    have hmsg : ["Successfully changed directory.\n"] = ["Failed to change directory.\n"] :=
      List.append_cancel_left hfail
    exact absurd hmsg (by decide)

/-- **The prompt tells the truth.** From the root, every run of `cd` commands that the arrays have
room for, and whose paths lead back to the root behind the last `/` they start again from, comes to
a prompt whose path leads to the current directory; and any `cd` there that reports failure changes
neither. -/
theorem prompt_truthful {f : Forest (Fin 100)} {paths : List Str} {sh : Shell}
    (ht : MemTree sh.fs f) (hroot : sh.fs.rootfile.fa = none) (hdir : sh.nowDir = .rootfile)
    (hpath : sh.nowPath = [slash]) (hrun : HonestRun paths sh) :
    ∃ sh', sh.run (paths.map .cd) = .ok sh' ∧ Truthful sh' ∧ ∀ path sh'', sh'.cd path = .ok sh'' →
      sh''.fs.console = sh'.fs.console ++ ["Failed to change directory.\n"] →
      sh''.nowDir = sh'.nowDir ∧ sh''.nowPath = sh'.nowPath := by
  suffices hreach : ∃ sh', sh.run (paths.map .cd) = .ok sh' ∧ AtPrompt sh.fs sh' by
    obtain ⟨sh', hok, hat⟩ := hreach
    exact ⟨sh', hok, hat.truthful, fun path sh'' => cd_failed⟩
  have hstart : AtPrompt sh.fs sh := by
    refine ⟨fun _ => rfl, [], ?_⟩
    rw [hdir, hpath]
    exact .root sh.fs
  generalize sh.fs = s at ht hroot hstart
  clear hdir hpath
  induction paths generalizing sh with
  | nil => exact ⟨sh, rfl, hstart⟩
  | cons path paths ih =>
    obtain ⟨hfits, hback, hrest⟩ := hrun
    obtain ⟨sh1, hstep⟩ := hstart.returns ht hroot hfits
    have hback' : BackToRoot s path := by
      intro rest hr d hd
      exact hback rest hr d ((follow_congr hstart.1 _ _).trans hd)
    obtain ⟨sh', hok, hat⟩ := ih (hrest sh1 hstep) (hstart.step ht hroot hback' hstep)
    exact ⟨sh', bind_eq_ok.mpr ⟨sh1, hstep, hok⟩, hat⟩

/-- The shell at its first prompt, on a volume with the directory `DDDDDDDD.DDD`. -/
def oneDirShell : Shell := ⟨fullDirFs, .rootfile, [slash]⟩

/-- The name of its directory as it is typed. -/
def oneDirName : Str := List.replicate 8 0x44 ++ 0x2E :: List.replicate 3 0x44

/-- Neither of the two paths starts again from the root, and both have room. -/
theorem oneDirShell_honest : HonestRun [oneDirName, [0x58]] oneDirShell := by
  have hback : ∀ path ∈ [oneDirName, [0x58]], ∀ s, BackToRoot s path := by
    intro path hp s rest hrest
    have hnone : lastAbsolute true (standardDirPath path) = none := by
      rcases List.mem_pair.mp hp with rfl | rfl
      · decide
      · decide
    rw [hnone] at hrest
    cases hrest
  have hway1 : (standardDirPath oneDirName).splitOn slash = [oneDirName] := by decide
  have hway2 : (standardDirPath [0x58]).splitOn slash = [[0x58]] := by decide
  have hcheck : returnsWith (oneDirShell.step (.cd oneDirName)) (fun sh1 =>
    decide (sh1.nowPath = slash :: oneDirName)) = true := by decide +kernel
  obtain ⟨sh1, hstep, hpath⟩ := returnsWith_iff.mp hcheck
  refine ⟨⟨by decide, ?_⟩, hback _ List.mem_cons_self _, fun sh2 hstep2 => ?_⟩
  · rw [hway1]
    exact ⟨by decide, fun _ _ _ _ => ⟨by decide, trivial⟩⟩
  · obtain rfl : sh1 = sh2 := Except.ok.inj (hstep.symm.trans hstep2)
    refine ⟨⟨by decide, ?_⟩, hback _ (List.mem_cons_of_mem _ List.mem_cons_self) _, fun _ _ => trivial⟩
    rw [hway2, of_decide_eq_true hpath]
    exact ⟨by decide, fun _ _ _ _ => ⟨by decide, trivial⟩⟩

/-- `cd DDDDDDDD.DDD`, and then a `cd` to a directory that does not exist. -/
theorem prompt_truthful_relative : ∃ sh', oneDirShell.run ([oneDirName, [0x58]].map .cd) = .ok sh' ∧
    sh'.nowDir = .slot 0 ∧ sh'.nowPath = slash :: oneDirName ∧ Truthful sh' := by
  have hcheck : returnsWith (oneDirShell.run ([oneDirName, [0x58]].map .cd)) (fun sh' =>
    decide (sh'.nowDir = .slot 0 ∧ sh'.nowPath = slash :: oneDirName)) = true := by decide +kernel
  obtain ⟨sh', hrun, hend⟩ := returnsWith_iff.mp hcheck
  obtain ⟨sh2, hrun2, htrue, -⟩ := prompt_truthful fullDirFs_mounted.tree rfl rfl rfl oneDirShell_honest
  obtain rfl : sh' = sh2 := Except.ok.inj (hrun.symm.trans hrun2)
  obtain ⟨hdir, hpath⟩ := of_decide_eq_true hend
  exact ⟨sh', hrun, hdir, hpath, htrue⟩

/-- `cd /DDDDDDDD.DDD` shows the path of the directory and stays in the root. -/
theorem prompt_lies : ∃ sh', oneDirShell.run [.cd (slash :: oneDirName)] = .ok sh' ∧
    sh'.nowDir = .rootfile ∧ sh'.nowPath = slash :: oneDirName ∧ ¬ Truthful sh' := by
  have hcheck : (match oneDirShell.run [.cd (slash :: oneDirName)] with
    | .ok sh' => decide (sh'.nowDir = .rootfile ∧ sh'.nowPath = slash :: oneDirName ∧
        follow sh'.fs .rootfile [oneDirName] = .ok (some (.slot 0)))
    | .error _ => false) = true := by decide +kernel
  generalize oneDirShell.run [.cd (slash :: oneDirName)] = x at hcheck
  cases x with
  | error e => cases hcheck
  | ok sh' =>
    obtain ⟨hdir, hpath, hleads⟩ := of_decide_eq_true hcheck
    refine ⟨sh', rfl, hdir, hpath, fun ht => ?_⟩
    have hproper : Pathname.Proper slash oneDirName := ⟨by decide, by decide⟩
    rw [Truthful, hpath, hdir, Pathname.components_sep, Pathname.components_single hproper,
      hleads] at ht
    cases ht

end GwOS
