import GwOS.Filesystem.Shell
import GwOS.Filesystem.Tree

/-!
# Walking the tree by paths

`change_directory` and `try_cd` follow the links of the tree, so what they find is in it:
the root, or a node that is reached from the root (`HasRef`).
-/

namespace GwOS

/-- A child of `fa` points back to it. -/
theorem Linked.fa_of_mem_tops {fl : Fin 100 → File} {f : Forest (Fin 100)} {fa : FileRef}
    {p : Option FileRef} (h : Linked fl fa p f) {i : Fin 100} (hi : i ∈ f.tops) :
    (fl i).fa = some fa := by
  induction f generalizing p with
  | nil => exact absurd hi List.not_mem_nil
  | cons j kids sibs _ ih =>
    obtain ⟨-, -, hfa, -, hs⟩ := h
    rcases List.mem_cons.mp hi with rfl | hi
    · exact hfa
    · exact ih hs hi

/-- Every node has a parent: the one above the forest, or one of its nodes. -/
theorem Linked.fa_of_mem {fl : Fin 100 → File} {f : Forest (Fin 100)} {fa : FileRef}
    {p : Option FileRef} (h : Linked fl fa p f) {i : Fin 100} (hi : i ∈ f.labels) :
    ∃ r, (fl i).fa = some r ∧ (r = fa ∨ ∃ j ∈ f.labels, r = .slot j) := by
  induction f generalizing p fa with
  | nil => exact absurd hi List.not_mem_nil
  | cons j kids sibs ihk ihs =>
    obtain ⟨-, -, hfa, hk, hs⟩ := h
    rcases List.mem_cons.mp hi with rfl | hi
    · exact ⟨fa, hfa, .inl rfl⟩
    · rcases List.mem_append.mp hi with hi | hi
      · obtain ⟨r, hr, hin⟩ := ihk hk hi
        refine ⟨r, hr, .inr ?_⟩
        rcases hin with rfl | ⟨k, hkm, rfl⟩
        · exact ⟨j, List.mem_cons_self .., rfl⟩
        · exact ⟨k, List.mem_cons_of_mem _ (List.mem_append_left _ hkm), rfl⟩
      · obtain ⟨r, hr, hin⟩ := ihs hs hi
        refine ⟨r, hr, hin.imp id ?_⟩
        rintro ⟨k, hkm, rfl⟩
        exact ⟨k, List.mem_cons_of_mem _ (List.mem_append_right _ hkm), rfl⟩

section Tree

variable {s : Fs} {f : Forest (Fin 100)} {dir d : FileRef} {name : Name}

/-- A child that is looked up by its name has the directory as its `Fa`. -/
theorem MemTree.changeDirectory_child (h : MemTree s f) (hdir : HasRef f dir)
    (hname : name ≠ dotName 1 ∧ name ≠ dotName 2) (hcd : changeDirectory s dir name = .ok (some d)) :
    HasRef f d ∧ (s.file d).fa = some dir := by
  rw [changeDirectory, if_neg hname.1, if_neg hname.2,
    findSib_ok s name (h.children hdir) (h.tops_lt dir)] at hcd
  obtain ⟨i, hi, rfl⟩ := Option.map_eq_some_iff.mp (Except.ok.inj hcd)
  have hmem := List.mem_of_find?_eq_some hi
  exact ⟨childrenOf_subset (Forest.tops_subset_labels hmem), (h.children hdir).fa_of_mem_tops hmem⟩

theorem MemTree.fa_hasRef (h : MemTree s f) (hroot : s.rootfile.fa = none) (hdir : HasRef f dir)
    (hfa : (s.file dir).fa = some d) : HasRef f d := by
  cases dir with
  | rootfile =>
    have hnone : (s.file .rootfile).fa = none := hroot
    rw [hnone] at hfa
    cases hfa
  | slot i =>
    obtain ⟨r, hr, hin⟩ := h.linked.fa_of_mem hdir
    obtain rfl : r = d := Option.some.inj (hr.symm.trans hfa)
    rcases hin with rfl | ⟨j, hj, rfl⟩
    · trivial
    · exact hj

theorem MemTree.changeDirectory_hasRef (h : MemTree s f) (hroot : s.rootfile.fa = none)
    (hdir : HasRef f dir) (hcd : changeDirectory s dir name = .ok (some d)) : HasRef f d := by
  by_cases h1 : name = dotName 1
  · rw [changeDirectory, if_pos h1] at hcd
    cases hcd
    exact hdir
  · by_cases h2 : name = dotName 2
    · rw [changeDirectory, if_neg h1, if_pos h2] at hcd
      exact h.fa_hasRef hroot hdir (Except.ok.inj hcd)
    · exact (h.changeDirectory_child hdir ⟨h1, h2⟩ hcd).1

theorem MemTree.changeDirectory_returns (h : MemTree s f) (hdir : HasRef f dir) (name : Name) :
    ∃ r, changeDirectory s dir name = .ok r := by
  rw [changeDirectory]
  split
  · exact ⟨_, rfl⟩
  · split
    · exact ⟨_, rfl⟩
    · exact ⟨_, findSib_ok s name (h.children hdir) (h.tops_lt dir)⟩

/-- The induction of `try_cd`, on its fuel: the walk stays in the tree. -/
theorem MemTree.tryCdLoop_hasRef (h : MemTree s f) (hroot : s.rootfile.fa = none) {n : Nat}
    {p path path' : Str} {ok : Bool} (hdir : HasRef f dir)
    (hcd : tryCdLoop s n p dir path = .ok (ok, d, path')) : HasRef f d := by
  induction n generalizing p dir path with
  | zero => cases hcd
  | succ n ih =>
    cases p with
    | nil =>
      cases hcd
      exact hdir
    | cons c p =>
      unfold tryCdLoop at hcd
      by_cases hc : c = slash
      · rw [if_pos hc] at hcd
        obtain ⟨x, -, hcd⟩ := bind_eq_ok.mp hcd
        cases hcd
        trivial
      · rw [if_neg hc] at hcd
        generalize dividePath (c :: p) = parts at hcd
        obtain ⟨name, -, hcd⟩ := bind_eq_ok.mp hcd
        obtain ⟨next, hnext, hcd⟩ := bind_eq_ok.mp hcd
        cases next with
        | none =>
          cases hcd
          exact hdir
        | some next =>
          obtain ⟨path1, -, hcd⟩ := bind_eq_ok.mp hcd
          exact ih (h.changeDirectory_hasRef hroot hdir hnext) hcd

theorem MemTree.locateDir_hasRef (h : MemTree s f) (hroot : s.rootfile.fa = none)
    (hdir : HasRef f dir) {path : Str} (hloc : locateDir s dir path = .ok (some (d, name))) :
    HasRef f d := by
  rw [locateDir] at hloc
  obtain ⟨path0, -, hloc⟩ := bind_eq_ok.mp hloc
  obtain ⟨⟨dirPath, filename⟩, -, hloc⟩ := bind_eq_ok.mp hloc
  obtain ⟨⟨ok, d', path'⟩, htry, hloc⟩ := bind_eq_ok.mp hloc
  cases ok with
  | false => cases hloc
  | true =>
    cases hloc
    exact h.tryCdLoop_hasRef hroot hdir htry

/-- The file that `is_file_exist` finds is a child of the directory. -/
theorem MemTree.isFileExist_child (h : MemTree s f) (hdir : HasRef f dir) {file : FileRef}
    (hex : isFileExist s dir name = .ok (some file)) :
    ∃ i, file = .slot i ∧ i ∈ (childrenOf f dir).tops := by
  rw [h.isFileExist_ok hdir] at hex
  obtain ⟨i, hi, rfl⟩ := Option.map_eq_some_iff.mp (Except.ok.inj hex)
  exact ⟨i, rfl, List.mem_of_find?_eq_some hi⟩

end Tree

end GwOS
