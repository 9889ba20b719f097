import GwOS.Filesystem.Missing

/-!
# Absolute file paths

`file_path_to_dir_path` cuts a path at its last `/`, and `try_cd` walks the part before it. When
the last `/` is the first character, that part is empty and leads to the current directory. In
all other cases the leading `/` survives, but behind it `try_cd` moves a pointer of its own, so
that the caller ends in the root directory whatever the components lead to. Two `/` in a row start
again from the root.

- `tryCdLoop_flag`: when `try_cd` succeeds. The components between double slashes (`stretches`)
  are followed from the root, one stretch after the other.
- `absolutePath_iff`: for which paths and directories the lookup leads where the path says.
-/

namespace GwOS

/-! ## The walk, stretch by stretch -/

/-- The components of a path, cut where two `/` stand in a row. -/
def stretches (path : Str) : List (List Str) := (path.splitOn slash).splitOn []

/-- The stretches are followed one after the other, the first from `dir` and the others from the
root: whether each of them leads somewhere. -/
def allLead (s : Fs) : FileRef → List (List Str) → Except Fault Bool
  | _, [] => .ok true
  | dir, cs :: rest => do
    match ← follow s dir cs with
    | none => .ok false
    | some _ => allLead s .rootfile rest

/-- Every stretch leads somewhere from the root. -/
def EachLeads (s : Fs) (l : List (List Str)) : Prop :=
  ∀ cs ∈ l, ∃ d, follow s .rootfile cs = .ok (some d)

/-- A stretch leads nowhere from the root, and those before it lead somewhere. -/
def OneFails (s : Fs) (l : List (List Str)) : Prop :=
  ∃ before cs after, l = before ++ cs :: after ∧ EachLeads s before ∧
    follow s .rootfile cs = .ok none

section Stretches

variable {s : Fs} {dir : FileRef}

theorem allLead_cons_some {cs : List Str} {rest : List (List Str)} {d : FileRef}
    (h : follow s dir cs = .ok (some d)) :
    allLead s dir (cs :: rest) = allLead s .rootfile rest := by
  rw [allLead, h]
  rfl

theorem allLead_eq_true {l : List (List Str)} :
    allLead s .rootfile l = .ok true ↔ EachLeads s l := by
  induction l with
  | nil => exact iff_of_true rfl fun _ h => absurd h List.not_mem_nil
  | cons cs rest ih =>
    rw [EachLeads, List.forall_mem_cons]
    cases hf : follow s .rootfile cs with
    | error e =>
      refine iff_of_false (fun h => ?_) fun h => ?_
      · rw [allLead, hf] at h
        cases h
      · obtain ⟨⟨d, hd⟩, -⟩ := h
        cases hd
    | ok r =>
      cases r with
      | none =>
        refine iff_of_false (fun h => ?_) fun h => ?_
        · rw [allLead, hf] at h
          cases h
        · obtain ⟨⟨d, hd⟩, -⟩ := h
          cases hd
      | some d =>
        rw [allLead_cons_some hf, ih]
        exact ⟨fun h => ⟨⟨d, rfl⟩, h⟩, And.right⟩

theorem allLead_eq_false {l : List (List Str)} :
    allLead s .rootfile l = .ok false ↔ OneFails s l := by
  induction l with
  | nil =>
    refine iff_of_false (fun h => by cases h) ?_
    rintro ⟨before, cs, after, heq, -⟩
    exact absurd heq (by simp)
  | cons cs rest ih =>
    -- a stretch that fails further behind leaves the first one in front of it
    have hhead : ∀ {before c after}, cs :: rest = before ++ c :: after → before ≠ [] →
        ∃ before', before = cs :: before' ∧ rest = before' ++ c :: after := by
      intro before c after heq hne
      obtain ⟨b, before', rfl⟩ := List.exists_cons_of_ne_nil hne
      obtain ⟨rfl, htail⟩ := List.cons.inj heq
      exact ⟨before', rfl, htail⟩
    cases hf : follow s .rootfile cs with
    | error e =>
      refine iff_of_false (fun h => ?_) ?_
      · rw [allLead, hf] at h
        cases h
      · rintro ⟨before, c, after, heq, hlead, hnone⟩
        by_cases hnil : before = []
        · subst hnil
          obtain ⟨rfl, -⟩ := List.cons.inj heq
          rw [hf] at hnone
          cases hnone
        · obtain ⟨before', rfl, -⟩ := hhead heq hnil
          obtain ⟨d, hd⟩ := hlead cs List.mem_cons_self
          rw [hf] at hd
          cases hd
    | ok r =>
      cases r with
      | none =>
        refine iff_of_true ?_ ⟨[], cs, rest, rfl, fun _ h => absurd h List.not_mem_nil, hf⟩
        rw [allLead, hf]
        rfl
      | some d =>
        rw [allLead_cons_some hf, ih]
        constructor
        · rintro ⟨before, c, after, rfl, hlead, hnone⟩
          refine ⟨cs :: before, c, after, rfl, ?_, hnone⟩
          exact List.forall_mem_cons.mpr ⟨⟨d, hf⟩, hlead⟩
        · rintro ⟨before, c, after, heq, hlead, hnone⟩
          by_cases hnil : before = []
          · subst hnil
            obtain ⟨rfl, -⟩ := List.cons.inj heq
            rw [hf] at hnone
            cases hnone
          · obtain ⟨before', rfl, hrest⟩ := hhead heq hnil
            exact ⟨before', c, after, hrest, fun x hx => hlead x (List.mem_cons_of_mem _ hx), hnone⟩

/-- An empty stretch at the end leads to the root. -/
theorem allLead_append_nil {l : List (List Str)} :
    allLead s dir (l ++ [[]]) = allLead s dir l := by
  induction l generalizing dir with
  | nil => rfl
  | cons cs rest ih =>
    rw [List.cons_append, allLead, allLead]
    simp only [ih]

/-! ## How a path falls into stretches -/

theorem splitOn_cons_self (x : UInt8) (p : Str) : (x :: p).splitOn x = [] :: p.splitOn x := by
  rw [List.splitOn_cons_eq_if_modifyHead, if_pos (beq_self_eq_true x)]

theorem stretches_ne_nil (p : Str) : stretches p ≠ [] := List.splitOn_ne_nil _ _

theorem stretches_nil : stretches [] = [[], []] := rfl

/-- A leading `/` ends an empty stretch. -/
theorem stretches_slash (p : Str) : stretches (slash :: p) = [] :: stretches p := by
  rw [stretches, splitOn_cons_self, List.splitOn_cons_eq_if_modifyHead,
    if_pos (beq_self_eq_true [])]
  rfl

/-- A first component. -/
theorem stretches_component {fst : Str} (h : Pathname.Proper slash fst) (res : Str) :
    stretches (fst ++ slash :: res) = (stretches res).modifyHead (fst :: ·) := by
  have hne : (fst == []) = false := beq_eq_false_iff_ne.mpr h.1
  rw [stretches, List.splitOn_append_cons_self, List.splitOn_eq_singleton h.2,
    List.singleton_append, List.splitOn_cons_eq_if_modifyHead, hne]
  rfl

theorem stretches_single {fst : Str} (h : Pathname.Proper slash fst) :
    stretches fst = [[fst]] := by
  have hne : ([] : Str) ∉ [fst] := fun hm => h.1 (List.mem_singleton.mp hm).symm
  rw [stretches, List.splitOn_eq_singleton h.2, List.splitOn_eq_singleton hne]

theorem stretches_append_slash (p : Str) : stretches (p ++ [slash]) = stretches p ++ [[]] := by
  rw [stretches, List.splitOn_append_cons_self]
  show (p.splitOn slash ++ [] :: []).splitOn [] = _
  rw [List.splitOn_append_cons_self]
  rfl

/-- Taking a component off the first stretch. -/
theorem allLead_component {name : Name} {fst : Str} (hname : generateFilename fst = .ok name)
    (sts : List (List Str)) (hne : sts ≠ []) :
    allLead s dir (sts.modifyHead (fst :: ·)) = (changeDirectory s dir name >>= fun
      | none => .ok false
      | some next => allLead s next sts) := by
  obtain ⟨cs, rest, rfl⟩ := List.exists_cons_of_ne_nil hne
  rw [List.modifyHead_cons, allLead, follow, hname]
  simp only [bind, Except.bind]
  cases changeDirectory s dir name with
  | error e => rfl
  | ok r =>
    cases r with
    | none => rfl
    | some next => rfl

/-- The stretches of a path and of what `divede_path` leaves of it. -/
theorem allLead_divide {c : UInt8} {p fst res : Str} (hc : c ≠ slash)
    (h : dividePath (c :: p) = (fst, res)) :
    allLead s dir (stretches (c :: p)) =
      allLead s dir ((stretches res).modifyHead (fst :: ·)) := by
  obtain ⟨hproper, hsplit | ⟨hsplit, hres⟩⟩ := dividePath_split hc h
  · rw [hsplit, stretches_component hproper]
  · rw [hsplit, hres, stretches_single hproper, stretches_nil, List.modifyHead_cons]
    exact (allLead_append_nil (l := [[fst]])).symm

/-- The induction of `try_cd`, on its fuel: its result is that of the stretches. The rest of
the path has room in the string behind `now`. -/
theorem tryCdLoop_flag {n : Nat} {p now : Str} (hn : p.length < n)
    (hlen : p ≠ [] → now.length + p.length < 49) :
    (tryCdLoop s n p dir now).map Prod.fst = allLead s dir (stretches p) := by
  induction n generalizing p now dir with
  | zero => exact absurd hn (Nat.not_lt_zero _)
  | succ n ih =>
    cases p with
    | nil => rfl
    | cons c p =>
      have hroom := hlen (List.cons_ne_nil _ _)
      rw [List.length_cons] at hn hroom
      rw [tryCdLoop]
      by_cases hc : c = slash
      · -- a slash goes back to the root, and a new stretch begins
        have hrec := @ih .rootfile p [slash] (by omega) fun _ => by
          rw [List.length_singleton]
          omega
        rw [if_pos hc, hc, stretches_slash, allLead_cons_some rfl, ← hrec]
        cases tryCdLoop s n p .rootfile [slash] with
        | error e => rfl
        | ok r => rfl
      · rw [if_neg hc]
        generalize hdiv : dividePath (c :: p) = parts
        obtain ⟨fst, res⟩ := parts
        rw [allLead_divide hc hdiv]
        have hsplit := (dividePath_split hc hdiv).2
        -- the rest is shorter, and still has room behind the name of the component
        have hfst : fst.length ≤ p.length + 1 ∧ (res ≠ [] → fst.length + res.length ≤ p.length) ∧
            res.length ≤ p.length ∧ 0 < fst.length := by
          have hpos := List.length_pos_iff.mpr (dividePath_split hc hdiv).1.1
          rcases hsplit with hsplit | ⟨hsplit, hnil⟩
          · have hlen' := congrArg List.length hsplit
            rw [List.length_cons, List.length_append, List.length_cons] at hlen'
            exact ⟨by omega, fun _ => by omega, by omega, hpos⟩
          · have hlen' := congrArg List.length hsplit
            rw [List.length_cons] at hlen'
            refine ⟨by omega, fun hne => absurd hnil hne, ?_, hpos⟩
            rw [hnil]
            exact Nat.zero_le _
        cases hname : generateFilename fst with
        | error e =>
          obtain ⟨cs, rest, hsts⟩ := List.exists_cons_of_ne_nil (stretches_ne_nil res)
          rw [hsts, List.modifyHead_cons, allLead, follow]
          simp only [hname]
          rfl
        | ok name =>
          rw [allLead_component hname _ (stretches_ne_nil res)]
          simp only [bind, Except.bind, hname]
          cases changeDirectory s dir name with
          | error e => rfl
          | ok next =>
            cases next with
            | none => rfl
            | some next =>
              obtain ⟨now', henter, hnow'⟩ := @enterPath_returns now (fst.map toUpper)
                (by rw [List.length_map]; omega)
              rw [List.length_map] at hnow'
              simp only [henter]
              refine ih (by omega) fun hne => ?_
              have := hfst.2.1 hne
              omega

/-! ## Letters and the last slash -/

theorem stretches_toUpper (p : Str) :
    stretches (p.map toUpper) = (stretches p).map (List.map (List.map toUpper)) := by
  have hnil : ∀ c : Str, c.map toUpper = [] ↔ c = [] := fun c => List.map_eq_nil_iff
  rw [stretches, splitOn_map fun x => (toUpper_facts x).2.1, splitOn_map hnil, stretches]

theorem allLead_toUpper (l : List (List Str)) :
    allLead s dir (l.map (List.map (List.map toUpper))) = allLead s dir l := by
  induction l generalizing dir with
  | nil => rfl
  | cons cs rest ih =>
    rw [List.map_cons, allLead, allLead, follow_toUpper]
    simp only [ih]

/-- `standard_dir_path` changes nothing that the walk looks at. -/
theorem allLead_standardDirPath (p : Str) :
    allLead s dir (stretches (standardDirPath p)) = allLead s dir (stretches p) := by
  rw [standardDirPath]
  split
  · rfl
  · split
    · next hlast =>
      have hp : p = p.dropLast ++ [slash] := by
        obtain ⟨ys, rfl⟩ := List.getLast?_eq_some_iff.mp hlast
        rw [List.dropLast_concat]
      rw [stretches_toUpper, allLead_toUpper]
      conv_rhs => rw [hp, stretches_append_slash, allLead_append_nil]
    · rw [stretches_toUpper, allLead_toUpper]

end Stretches

/-! ## The lookup of the directory part -/

/-- `file_path_to_dir_path`, then `try_cd` on the directory part: the directory that the
commands go on with, unless `try_cd` fails. -/
def lookupDir (s : Fs) (nowDir : FileRef) (filePath : Str) : Except Fault (Option FileRef) := do
  let (dirPath, _) ← filePathToDirPath filePath
  let (ok, nowDir, _) ← tryCd s dirPath nowDir []
  .ok (if ok then some nowDir else none)

/-- From both directories the path leads where its components, but the last one, lead from the
root. -/
def RootedLookup (s : Fs) (p : Str) (d₁ d₂ : FileRef) : Prop :=
  ∃ r, follow s .rootfile (Pathname.components slash (beforeLast p)) = .ok r ∧
    lookupDir s d₁ p = .ok r ∧ lookupDir s d₂ p = .ok r

/-- The paths and directories for which this is so. -/
def RootedWhen (s : Fs) (p : Str) (d₁ d₂ : FileRef) : Prop :=
  (∃ name, generateFilename (behindLast p) = .ok name) ∧
    if beforeLast p = [] then d₁ = .rootfile ∧ d₂ = .rootfile
    else
      (follow s .rootfile (Pathname.components slash (beforeLast p)) = .ok (some .rootfile) ∧
        EachLeads s (stretches (beforeLast p))) ∨
      (follow s .rootfile (Pathname.components slash (beforeLast p)) = .ok none ∧
        OneFails s (stretches (beforeLast p)))

section Lookup

variable {s : Fs} {p : Str} {d : FileRef}

/-- The first character of a path is that of its directory part, if there is one. -/
theorem beforeLast_slash (hp : p.head? = some slash) (hne : beforeLast p ≠ []) :
    (∃ y, beforeLast p = slash :: y) ∧ (beforeLast p).length < p.length := by
  have hlen : (beforeLast p).length = (p.reverse.dropWhile (· ≠ slash)).length - 1 := by
    rw [beforeLast, List.length_reverse, List.length_drop]
  have hdrop := (List.dropWhile_sublist (· ≠ slash) (l := p.reverse)).length_le
  have hpos := List.length_pos_iff.mpr hne
  rw [List.length_reverse] at hdrop
  refine ⟨?_, by omega⟩
  have hsuffix := (List.drop_suffix 1 _).trans (List.dropWhile_suffix (· ≠ slash) (l := p.reverse))
  have hprefix := List.reverse_prefix.mpr hsuffix
  rw [List.reverse_reverse] at hprefix
  obtain ⟨t, ht⟩ : beforeLast p <+: p := hprefix
  obtain ⟨a, y, hy⟩ := List.exists_cons_of_ne_nil hne
  rw [← ht, hy] at hp
  have ha : a = slash := Option.some.inj hp
  exact ⟨y, by rw [hy, ha]⟩

/-- `standard_dir_path` keeps a leading `/`. -/
theorem standardDirPath_slash (y : Str) :
    ∃ rest, standardDirPath (slash :: y) = slash :: rest := by
  have hslash : toUpper slash = slash := by decide
  rw [standardDirPath]
  split
  · exact ⟨y, rfl⟩
  · next hne =>
    split
    · have hy : y ≠ [] := fun h => hne (by rw [h])
      refine ⟨y.dropLast.map toUpper, ?_⟩
      rw [List.dropLast_cons_of_ne_nil hy, List.map_cons, hslash]
    · exact ⟨y.map toUpper, by rw [List.map_cons, hslash]⟩

/-- The walk of a directory part that starts with `/`. -/
theorem tryCd_absolute {y : Str} (hlen : y.length < 48) :
    (tryCd s (standardDirPath (slash :: y)) d []).map (fun r => (r.1, r.2.1)) =
      (allLead s .rootfile (stretches (slash :: y))).map fun ok => (ok, .rootfile) := by
  have hstd := standardDirPath_length (slash :: y)
  have hlead := @allLead_standardDirPath s .rootfile (slash :: y)
  obtain ⟨rest, hrest⟩ := standardDirPath_slash y
  rw [hrest, List.length_cons, List.length_cons] at hstd
  have hflag := @tryCdLoop_flag s .rootfile (rest.length + 1) rest [slash] (Nat.lt_succ_self _)
    fun _ => by
      rw [List.length_singleton]
      omega
  rw [← hlead, hrest, stretches_slash, allLead_cons_some rfl, ← hflag, tryCd, List.length_cons,
    tryCdLoop, if_pos rfl]
  cases tryCdLoop s (rest.length + 1) rest .rootfile [slash] with
  | error e => rfl
  | ok r => rfl

/-- What the commands go on with. -/
theorem lookupDir_eq (hp : p.head? = some slash) (hlen : p.length < 50) {name : Name}
    (hname : generateFilename (behindLast p) = .ok name) : lookupDir s d p =
      if beforeLast p = [] then .ok (some d)
      else (allLead s .rootfile (stretches (beforeLast p))).map fun ok =>
        if ok then some .rootfile else none := by
  have hcut : filePathToDirPath p = .ok (standardDirPath (beforeLast p), name) := by
    rw [filePathToDirPath, hname]
    rfl
  rw [lookupDir, hcut]
  by_cases hnil : beforeLast p = []
  · rw [if_pos hnil, hnil]
    rfl
  · obtain ⟨⟨y, hy⟩, hlt⟩ := beforeLast_slash hp hnil
    rw [if_neg hnil, hy]
    rw [hy, List.length_cons] at hlt
    -- `try_cd` on the part in front of the last slash
    have hcd := @tryCd_absolute s d y (by omega)
    simp only [bind, Except.bind]
    cases hl : allLead s .rootfile (stretches (slash :: y)) with
    | error e =>
      rw [hl] at hcd
      cases ht : tryCd s (standardDirPath (slash :: y)) d [] with
      | error e' =>
        rw [ht] at hcd
        exact congrArg Except.error (Except.error.inj hcd)
      | ok r =>
        rw [ht] at hcd
        cases hcd
    | ok ok =>
      rw [hl] at hcd
      cases ht : tryCd s (standardDirPath (slash :: y)) d [] with
      | error e' =>
        rw [ht] at hcd
        cases hcd
      | ok r =>
        rw [ht] at hcd
        obtain ⟨h1, h2⟩ := Prod.mk.inj (Except.ok.inj hcd)
        simp only [h1, h2]
        rfl

/-- **Absolute file paths.** The lookup of the directory part leads, from any two directories,
where the components lead from the root, exactly when: the last component is a name that fits;
and, if the last `/` is the first character, both directories are the root; or else the components
lead to the root itself and every stretch leads somewhere, or they lead nowhere and so does one of
the stretches. -/
theorem absolutePath_iff (hp : p.head? = some slash) (hlen : p.length < 50) (d₁ d₂ : FileRef) :
    RootedLookup s p d₁ d₂ ↔ RootedWhen s p d₁ d₂ := by
  cases hname : generateFilename (behindLast p) with
  | error e =>
    refine iff_of_false ?_ ?_
    · rintro ⟨r, -, hl, -⟩
      rw [lookupDir, filePathToDirPath, hname] at hl
      cases hl
    · rintro ⟨⟨name, h⟩, -⟩
      rw [hname] at h
      cases h
  | ok name =>
    have hlook := fun d => @lookupDir_eq s p d hp hlen name hname
    rw [RootedLookup, RootedWhen, hlook, hlook]
    by_cases hnil : beforeLast p = []
    · -- the file is in the directory of the shell
      rw [if_pos hnil, if_pos hnil, if_pos hnil, hnil, Pathname.components_nil, follow]
      constructor
      · rintro ⟨r, hr, h1, h2⟩
        cases hr
        cases h1
        cases h2
        exact ⟨⟨name, hname⟩, rfl, rfl⟩
      · rintro ⟨-, rfl, rfl⟩
        exact ⟨_, rfl, rfl, rfl⟩
    · rw [if_neg hnil, if_neg hnil, if_neg hnil, ← allLead_eq_true, ← allLead_eq_false]
      generalize allLead s .rootfile (stretches (beforeLast p)) = flag
      constructor
      · rintro ⟨r, hr, h1, -⟩
        refine ⟨⟨name, hname⟩, ?_⟩
        cases flag with
        | error e => cases h1
        | ok ok =>
          cases ok with
          | true =>
            cases h1
            exact .inl ⟨hr, rfl⟩
          | false =>
            cases h1
            exact .inr ⟨hr, rfl⟩
      · rintro ⟨-, ⟨hr, rfl⟩ | ⟨hr, rfl⟩⟩
        · exact ⟨_, hr, rfl, rfl⟩
        · exact ⟨_, hr, rfl, rfl⟩

end Lookup

/-- The path `/DDDDDDDD.DDD/../A`. -/
def parentPath : Str := slash :: oneDirName ++ [slash, 0x2E, 0x2E, slash, 0x41]

/-- From the root and from the directory `DDDDDDDD.DDD` alike, `/DDDDDDDD.DDD/../A` is looked up
in the root, and `/N/A` nowhere. -/
theorem absolutePath_twoDirs : RootedLookup fullDirFs parentPath .rootfile (.slot 0) ∧
    RootedLookup fullDirFs [slash, 0x4E, slash, 0x41] .rootfile (.slot 0) := by
  constructor
  · refine (absolutePath_iff rfl (by decide) .rootfile (.slot 0)).mpr ⟨?_, ?_⟩
    · exact (nameFits_iff _).mp (.of_length (by decide))
    · rw [if_neg (by decide)]
      refine .inl ⟨by decide +kernel, allLead_eq_true.mp ?_⟩
      decide +kernel
  · refine (absolutePath_iff rfl (by decide) .rootfile (.slot 0)).mpr ⟨?_, ?_⟩
    · exact (nameFits_iff _).mp (.of_length (by decide))
    · rw [if_neg (by decide)]
      refine .inr ⟨by decide +kernel, allLead_eq_false.mp ?_⟩
      decide +kernel

/-- From the directory `DDDDDDDD.DDD`, `/A` is looked up in that directory; and
`/DDDDDDDD.DDD/X` is looked up in the root. -/
theorem absolutePath_astray :
    ¬ RootedLookup fullDirFs [slash, 0x41] .rootfile (.slot 0) ∧
      ¬ RootedLookup fullDirFs (slash :: oneDirName ++ [slash, 0x58]) .rootfile .rootfile := by
  constructor
  · rintro ⟨r, -, h1, h2⟩
    obtain ⟨name, hname⟩ := (nameFits_iff (behindLast [slash, 0x41])).mp (.of_length (by decide))
    rw [lookupDir_eq rfl (by decide) hname, if_pos (by decide)] at h1 h2
    cases h1
    cases h2
  · rintro ⟨r, hr, h1, -⟩
    have hleads : follow fullDirFs .rootfile (Pathname.components slash
        (beforeLast (slash :: oneDirName ++ [slash, 0x58]))) = .ok (some (.slot 0)) := by
      decide +kernel
    rw [hleads] at hr
    cases hr
    obtain ⟨name, hname⟩ := (nameFits_iff (behindLast (slash :: oneDirName ++ [slash, 0x58]))).mp
      (.of_length (by decide))
    rw [lookupDir_eq rfl (by decide) hname, if_neg (by decide)] at h1
    generalize allLead fullDirFs .rootfile
      (stretches (beforeLast (slash :: oneDirName ++ [slash, 0x58]))) = flag at h1
    cases flag with
    | error e => cases h1
    | ok ok =>
      cases ok with
      | true => cases h1
      | false => cases h1

end GwOS
