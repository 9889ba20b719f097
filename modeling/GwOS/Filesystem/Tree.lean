import GwOS.Filesystem.Fsfunc
import GwOS.Lib.Forest

/-!
# The in-memory tree

`Linked fl fa p f` says that the pointer `p` leads, through the `FstSon` and
`NextSib` links of the file table, to exactly the nodes of the forest `f`, all
in use and all with the right `Fa`. `MemTree s f` is the same for the tree under
`rootfile`, with distinct slots.

Every operation of `fsfunc.c` changes the children of one directory, so one
lemma carries the shape through all of them: `MemTree.replace` re-establishes
the whole tree from the new child list of that directory alone. The other
lemmas follow the loops over sibling lists.
-/

namespace GwOS

/-- The nodes `.` and `..`, which share the clusters of other nodes. -/
def IsDot (file : File) : Prop := file.filename = dotName 1 ∨ file.filename = dotName 2

instance (file : File) : Decidable (IsDot file) := by
  unfold IsDot
  infer_instance

/-- The pointer `p` leads to the forest `f` of children of `fa`. -/
def Linked (fl : Fin 100 → File) : FileRef → Option FileRef → Forest (Fin 100) → Prop
  | _, p, .nil => p = none
  | fa, p, .cons i kids sibs =>
    p = some (.slot i) ∧ (fl i).used = true ∧ (fl i).fa = some fa ∧
      Linked fl (.slot i) (fl i).fstSon kids ∧ Linked fl fa (fl i).nextSib sibs

instance decidableLinked (fl : Fin 100 → File) : ∀ (fa : FileRef) (p : Option FileRef)
    (f : Forest (Fin 100)), Decidable (Linked fl fa p f)
  | _, p, .nil => inferInstanceAs (Decidable (p = none))
  | fa, p, .cons i kids sibs =>
    haveI := decidableLinked fl (.slot i) (fl i).fstSon kids
    haveI := decidableLinked fl fa (fl i).nextSib sibs
    inferInstanceAs (Decidable (p = some (.slot i) ∧ (fl i).used = true ∧ (fl i).fa = some fa ∧
      Linked fl (.slot i) (fl i).fstSon kids ∧ Linked fl fa (fl i).nextSib sibs))

/-- Agreement of everything `Linked` looks at. -/
structure SameLinks (a b : File) : Prop where
  used : a.used = b.used
  fa : a.fa = b.fa
  fstSon : a.fstSon = b.fstSon
  nextSib : a.nextSib = b.nextSib

theorem SameLinks.refl (a : File) : SameLinks a a := ⟨rfl, rfl, rfl, rfl⟩

theorem Linked.congr {fl fl' : Fin 100 → File} : ∀ {f : Forest (Fin 100)} {fa : FileRef}
    {p : Option FileRef}, Linked fl fa p f →
    (∀ i ∈ f.labels, SameLinks (fl' i) (fl i)) → Linked fl' fa p f
  | .nil, _, _, h, _ => h
  | .cons i kids sibs, fa, p, h, hs => by
    obtain ⟨hp, hu, hfa, hk, hsib⟩ := h
    have hi := hs i (List.mem_cons_self ..)
    refine ⟨hp, hi.used.trans hu, hi.fa.trans hfa, ?_, ?_⟩
    · rw [hi.fstSon]
      exact hk.congr fun x hx => hs x (List.mem_cons_of_mem _ (List.mem_append_left _ hx))
    · rw [hi.nextSib]
      exact hsib.congr fun x hx => hs x (List.mem_cons_of_mem _ (List.mem_append_right _ hx))

/-- The links determine the forest. -/
theorem Linked.unique {fl : Fin 100 → File} : ∀ {f g : Forest (Fin 100)} {fa : FileRef}
    {p : Option FileRef}, Linked fl fa p f → Linked fl fa p g → f = g
  | .nil, .nil, _, _, _, _ => rfl
  | .nil, .cons _ _ _, _, _, h, h' => by
    rw [show _ = none from h] at h'
    cases h'.1
  | .cons _ _ _, .nil, _, _, h, h' => by
    rw [show _ = none from h'] at h
    cases h.1
  | .cons i kids sibs, .cons j kids' sibs', _, _, h, h' => by
    obtain ⟨rfl, -, -, hk, hs⟩ := h
    obtain ⟨hp, -, -, hk', hs'⟩ := h'
    cases hp
    rw [Linked.unique hk hk', Linked.unique hs hs']

theorem Linked.used {fl : Fin 100 → File} : ∀ {f : Forest (Fin 100)} {fa : FileRef}
    {p : Option FileRef}, Linked fl fa p f → ∀ i ∈ f.labels, (fl i).used = true
  | .cons j kids sibs, _, _, h, i, hi => by
    rcases List.mem_cons.mp hi with rfl | hi
    · exact h.2.1
    · rcases List.mem_append.mp hi with hi | hi
      · exact h.2.2.2.1.used i hi
      · exact h.2.2.2.2.used i hi

/-- The child list of a node of the forest. -/
theorem Linked.kidsAt {fl : Fin 100 → File} {j : Fin 100} : ∀ {f : Forest (Fin 100)}
    {fa : FileRef} {p : Option FileRef}, Linked fl fa p f → j ∈ f.labels →
    Linked fl (.slot j) (fl j).fstSon (f.kidsAt j)
  | .cons i kids sibs, _, _, h, hj => by
    rw [Forest.kidsAt]
    by_cases hi : i = j
    · subst hi
      rw [if_pos rfl]
      exact h.2.2.2.1
    · rw [if_neg hi]
      by_cases hk : j ∈ kids.labels
      · rw [if_pos hk]
        exact h.2.2.2.1.kidsAt hk
      · rw [if_neg hk]
        refine h.2.2.2.2.kidsAt ?_
        rcases List.mem_cons.mp hj with rfl | hj
        · exact absurd rfl hi
        · exact (List.mem_append.mp hj).resolve_left hk

/-- Replacing the child list of node `j`: the nodes that stay keep their links,
except that `j` may get a new first son. -/
theorem Linked.setKids {fl fl' : Fin 100 → File} {j : Fin 100} {K : Forest (Fin 100)}
    (hK : Linked fl' (.slot j) (fl' j).fstSon K) : ∀ {f : Forest (Fin 100)} {fa : FileRef}
    {p : Option FileRef}, Linked fl fa p f → f.labels.Nodup →
    (∀ i ∈ f.labels, i ∉ (f.kidsAt j).labels → (fl' i).used = (fl i).used ∧
      (fl' i).fa = (fl i).fa ∧ (fl' i).nextSib = (fl i).nextSib ∧
      (i ≠ j → (fl' i).fstSon = (fl i).fstSon)) →
    Linked fl' fa p (f.setKids j K)
  | .nil, _, _, h, _, _ => h
  | .cons i kids sibs, fa, p, h, hn, hsame => by
    obtain ⟨hp, hu, hfa, hk, hs⟩ := h
    obtain ⟨hik, his, hnk, hns, hd⟩ := Forest.nodup_cons_iff.mp hn
    have hmem : ∀ x, x ∈ kids.labels ∨ x ∈ sibs.labels → x ∈ (Forest.cons i kids sibs).labels :=
      fun x hx => List.mem_cons_of_mem _ (List.mem_append.mpr hx)
    by_cases hij : i = j
    · subst hij
      have hka : (Forest.cons i kids sibs).kidsAt i = kids := by rw [Forest.kidsAt, if_pos rfl]
      rw [hka] at hsame
      obtain ⟨hu', hfa', hn', -⟩ := hsame i (List.mem_cons_self ..) hik
      rw [Forest.setKids, if_pos rfl, Forest.setKids_of_not_mem his]
      refine ⟨hp, hu'.trans hu, hfa'.trans hfa, hK, ?_⟩
      rw [hn']
      refine hs.congr fun x hx => ?_
      obtain ⟨h1, h2, h3, h4⟩ := hsame x (hmem x (.inr hx)) fun hxk => hd hxk hx
      exact ⟨h1, h2, h4 (fun e => his (e ▸ hx)), h3⟩
    · by_cases hjk : j ∈ kids.labels
      · have hka : (Forest.cons i kids sibs).kidsAt j = kids.kidsAt j := by
          rw [Forest.kidsAt, if_neg hij, if_pos hjk]
        rw [hka] at hsame
        have hsub : ∀ x, x ∉ kids.labels → x ∉ (kids.kidsAt j).labels :=
          fun x hx hxk => hx (Forest.kidsAt_labels_subset hxk)
        obtain ⟨hu', hfa', hn', hf'⟩ := hsame i (List.mem_cons_self ..) (hsub i hik)
        rw [Forest.setKids, if_neg hij, Forest.setKids_of_not_mem (hd hjk)]
        refine ⟨hp, hu'.trans hu, hfa'.trans hfa, ?_, ?_⟩
        · rw [hf' hij]
          exact Linked.setKids hK hk hnk fun x hx hxk => hsame x (hmem x (.inl hx)) hxk
        · rw [hn']
          refine hs.congr fun x hx => ?_
          have hxk : x ∉ kids.labels := fun hxk => hd hxk hx
          obtain ⟨h1, h2, h3, h4⟩ := hsame x (hmem x (.inr hx)) (hsub x hxk)
          exact ⟨h1, h2, h4 (fun e => hxk (e ▸ hjk)), h3⟩
      · have hka : (Forest.cons i kids sibs).kidsAt j = sibs.kidsAt j := by
          rw [Forest.kidsAt, if_neg hij, if_neg hjk]
        rw [hka] at hsame
        have hsub : ∀ x, x ∉ sibs.labels → x ∉ (sibs.kidsAt j).labels :=
          fun x hx hxk => hx (Forest.kidsAt_labels_subset hxk)
        obtain ⟨hu', hfa', hn', hf'⟩ := hsame i (List.mem_cons_self ..) (hsub i his)
        rw [Forest.setKids, if_neg hij, Forest.setKids_of_not_mem hjk]
        refine ⟨hp, hu'.trans hu, hfa'.trans hfa, ?_, ?_⟩
        · rw [hf' hij]
          refine hk.congr fun x hx => ?_
          have hxs : x ∉ sibs.labels := fun hxs => hd hx hxs
          obtain ⟨h1, h2, h3, h4⟩ := hsame x (hmem x (.inl hx)) (hsub x hxs)
          exact ⟨h1, h2, h4 (fun e => hjk (e ▸ hx)), h3⟩
        · rw [hn']
          exact Linked.setKids hK hs hns fun x hx hxk => hsame x (hmem x (.inr hx)) hxk

/-! ## The whole tree -/

/-- The reference names the root or a node of the forest. -/
def HasRef (f : Forest (Fin 100)) : FileRef → Prop
  | .rootfile => True
  | .slot j => j ∈ f.labels

/-- The child list of the root or of a node. -/
def childrenOf (f : Forest (Fin 100)) : FileRef → Forest (Fin 100)
  | .rootfile => f
  | .slot j => f.kidsAt j

/-- Replace the child list of the root or of a node. -/
def replaceChildren (f : Forest (Fin 100)) : FileRef → Forest (Fin 100) → Forest (Fin 100)
  | .rootfile, K => K
  | .slot j, K => f.setKids j K

/-- The tree under `rootfile` is the forest `f`. -/
structure MemTree (s : Fs) (f : Forest (Fin 100)) : Prop where
  linked : Linked s.filelist .rootfile s.rootfile.fstSon f
  nodup : f.labels.Nodup

variable {s s' : Fs} {f K : Forest (Fin 100)} {r : FileRef}

theorem MemTree.unique {g : Forest (Fin 100)} (h : MemTree s f) (h' : MemTree s g) : f = g :=
  h.linked.unique h'.linked

/-- The tree depends on the links of its nodes only. -/
theorem MemTree.congr (h : MemTree s f) (hroot : s'.rootfile.fstSon = s.rootfile.fstSon)
    (hnode : ∀ i ∈ f.labels, SameLinks (s'.filelist i) (s.filelist i)) : MemTree s' f := by
  refine ⟨?_, h.nodup⟩
  rw [hroot]
  exact h.linked.congr hnode

theorem MemTree.children (h : MemTree s f) (hr : HasRef f r) :
    Linked s.filelist r (s.file r).fstSon (childrenOf f r) := by
  cases r with
  | rootfile => exact h.linked
  | slot j => exact h.linked.kidsAt hr

theorem childrenOf_subset {x : Fin 100} (hx : x ∈ (childrenOf f r).labels) : x ∈ f.labels := by
  cases r with
  | rootfile => exact hx
  | slot j => exact Forest.kidsAt_labels_subset hx

theorem MemTree.children_nodup (h : MemTree s f) (r : FileRef) :
    (childrenOf f r).labels.Nodup := by
  cases r with
  | rootfile => exact h.nodup
  | slot j => exact Forest.kidsAt_nodup h.nodup

/-- What is below a child of `r` is what is below it in the whole tree. -/
theorem MemTree.kidsAt_child (h : MemTree s f) {i : Fin 100}
    (hi : i ∈ (childrenOf f r).labels) :
    (childrenOf f r).kidsAt i = f.kidsAt i := by
  cases r with
  | rootfile => rfl
  | slot j => exact Forest.kidsAt_kidsAt h.nodup hi

/-- A node is not its own descendant. -/
theorem MemTree.self_not_mem (h : MemTree s f) (hr : HasRef f r) {i : Fin 100}
    (hi : i ∈ (childrenOf f r).labels) : FileRef.slot i ≠ r := by
  rintro rfl
  exact Forest.not_mem_kidsAt_self h.nodup hr hi

/-- A sibling list is shorter than the file table. -/
theorem MemTree.tops_lt (h : MemTree s f) (r : FileRef) :
    (childrenOf f r).tops.length < sibFuel := by
  have h1 := Forest.tops_length_le (childrenOf f r)
  have h2 := (h.children_nodup r).length_le_card
  rw [Fintype.card_fin] at h2
  unfold sibFuel
  omega

/-- **One directory changes, the tree follows.** If the nodes outside the old
children of `r` keep their links, up to the first son of `r` itself, and `K` is
linked under `r` in the new state, then the new tree is the old one with `K` as
children of `r`. -/
theorem MemTree.replace (h : MemTree s f) (hr : HasRef f r)
    (hK : Linked s'.filelist r (s'.file r).fstSon K) (hKn : K.labels.Nodup)
    (hroot : r ≠ .rootfile → s'.rootfile.fstSon = s.rootfile.fstSon)
    (hsame : ∀ i ∈ f.labels, i ∉ (childrenOf f r).labels →
      (s'.filelist i).used = (s.filelist i).used ∧ (s'.filelist i).fa = (s.filelist i).fa ∧
      (s'.filelist i).nextSib = (s.filelist i).nextSib ∧
      (.slot i ≠ r → (s'.filelist i).fstSon = (s.filelist i).fstSon))
    (hnew : ∀ x ∈ K.labels, x ∈ f.labels → x ∈ (childrenOf f r).labels) :
    MemTree s' (replaceChildren f r K) := by
  cases r with
  | rootfile => exact ⟨hK, hKn⟩
  | slot j =>
    refine ⟨?_, Forest.nodup_setKids h.nodup hr hKn hnew⟩
    rw [hroot (by simp)]
    refine Linked.setKids hK h.linked h.nodup fun i hi hik => ?_
    obtain ⟨h1, h2, h3, h4⟩ := hsame i hi hik
    exact ⟨h1, h2, h3, fun hij => h4 (by simpa using hij)⟩

/-- Labels after replacing a child list. -/
theorem mem_replaceChildren (h : MemTree s f) (hr : HasRef f r) {x : Fin 100} :
    x ∈ (replaceChildren f r K).labels ↔
      x ∈ K.labels ∨ (x ∈ f.labels ∧ x ∉ (childrenOf f r).labels) := by
  cases r with
  | rootfile =>
    constructor
    · exact .inl
    · rintro (hx | ⟨hx, hn⟩)
      · exact hx
      · exact absurd hx hn
  | slot j => exact Forest.mem_setKids h.nodup hr

/-- A new node in front of the children of `r`, with its own children `kids`. -/
theorem MemTree.insert (h : MemTree s f) (hr : HasRef f r) {i : Fin 100}
    {kids : Forest (Fin 100)} (hi : i ∉ f.labels) (hik : i ∉ kids.labels)
    (hkn : kids.labels.Nodup) (hkf : ∀ x ∈ kids.labels, x ∉ f.labels)
    (hused : (s'.filelist i).used = true) (hfa : (s'.filelist i).fa = some r)
    (hsib : (s'.filelist i).nextSib = (s.file r).fstSon)
    (hkids : Linked s'.filelist (.slot i) (s'.filelist i).fstSon kids)
    (hdir : s'.file r = { s.file r with fstSon := some (.slot i) })
    (hsame : ∀ q, HasRef f q → q ≠ r → s'.file q = s.file q) :
    MemTree s' (replaceChildren f r (.cons i kids (childrenOf f r))) := by
  have hchild : ∀ x ∈ (childrenOf f r).labels, s'.filelist x = s.filelist x := fun x hx =>
    hsame (.slot x) (childrenOf_subset hx) (h.self_not_mem hr hx)
  refine h.replace hr ?_ ?_ ?_ ?_ ?_
  · refine ⟨by rw [hdir], hused, hfa, hkids, ?_⟩
    rw [hsib]
    refine (h.children hr).congr fun x hx => ?_
    rw [hchild x hx]
    exact SameLinks.refl _
  · refine Forest.nodup_cons_iff.mpr ⟨hik, fun hm => hi (childrenOf_subset hm), hkn,
      h.children_nodup r, fun x hx hxc => hkf x hx (childrenOf_subset hxc)⟩
  · intro hroot
    have := hsame .rootfile trivial hroot.symm
    show (s'.file .rootfile).fstSon = (s.file .rootfile).fstSon
    rw [this]
  · intro x hx _
    have hdata : s'.filelist x = s.filelist x ∨
        (.slot x = r ∧ s'.filelist x = { s.filelist x with fstSon := some (.slot i) }) := by
      by_cases hxr : .slot x = r
      · subst hxr
        exact .inr ⟨rfl, hdir⟩
      · exact .inl (hsame (.slot x) hx hxr)
    rcases hdata with hd | ⟨hxr, hd⟩
    · rw [hd]
      exact ⟨rfl, rfl, rfl, fun _ => rfl⟩
    · rw [hd]
      exact ⟨rfl, rfl, rfl, fun hne => absurd hxr hne⟩
  · intro x hx hxf
    rcases List.mem_cons.mp hx with rfl | hx
    · exact absurd hxf hi
    · rcases List.mem_append.mp hx with hx | hx
      · exact absurd hxf (hkf x hx)
      · exact hx

/-! ## Walking a sibling list -/

/-- `is_file_exist` finds the first child of that name. -/
theorem findSib_ok (s : Fs) (filename : Name) : ∀ {f : Forest (Fin 100)} {fa : FileRef}
    {p : Option FileRef} {n : Nat}, Linked s.filelist fa p f → f.tops.length < n →
    findSib s filename n p =
      .ok ((f.tops.find? fun i => (s.filelist i).filename = filename).map .slot)
  | .nil, _, _, n + 1, h, _ => by
    rw [show _ = none from h]
    rfl
  | .cons i kids sibs, fa, p, n + 1, h, hn => by
    obtain ⟨rfl, -, -, -, hs⟩ := h
    have hn' : sibs.tops.length < n := by
      simp only [Forest.tops, List.length_cons] at hn
      omega
    have hfile : s.file (.slot i) = s.filelist i := rfl
    rw [findSib, Forest.tops, List.find?_cons, hfile]
    by_cases he : (s.filelist i).filename = filename
    · simp [he]
    · simp only [he, if_false, decide_false]
      exact findSib_ok s filename hs hn'

theorem MemTree.isFileExist_ok (h : MemTree s f) (hr : HasRef f r) (filename : Name) :
    isFileExist s r filename = .ok (((childrenOf f r).tops.find? fun i =>
      (s.filelist i).filename = filename).map .slot) :=
  findSib_ok s filename (h.children hr) (h.tops_lt r)

/-- Behind the removed node the loop of `delete_file_from_fa` changes nothing. -/
theorem unlinkSib_absent (fa file : FileRef) (found : Bool) (s : Fs) :
    ∀ {f : Forest (Fin 100)} {fa' : FileRef} {p pre : Option FileRef} {n : Nat},
      Linked s.filelist fa' p f → f.tops.length < n → (∀ i ∈ f.tops, .slot i ≠ file) →
      unlinkSib fa file n s p pre found = .ok (found, s)
  | .nil, _, _, _, n + 1, h, _, _ => by
    rw [show _ = none from h]
    rfl
  | .cons i kids sibs, _, _, _, n + 1, h, hn, hne => by
    obtain ⟨rfl, -, -, -, hs⟩ := h
    have hn' : sibs.tops.length < n := by
      simp only [Forest.tops, List.length_cons] at hn
      omega
    rw [unlinkSib, if_neg (hne i (List.mem_cons_self ..))]
    exact unlinkSib_absent fa file found s hs hn' fun x hx => hne x (List.mem_cons_of_mem _ hx)

/-- The predecessor of `i` on the first level, `pre` for the first node. -/
def predTop : Forest (Fin 100) → Fin 100 → Option FileRef → Option FileRef
  | .nil, _, pre => pre
  | .cons a _ sibs, i, pre => if a = i then pre else predTop sibs i (some (.slot a))

theorem file_relink_of_ne (s : Fs) (fa : FileRef) (pre next : Option FileRef) {q : FileRef}
    (hfa : q ≠ fa) (hpre : pre ≠ some q) : (relink s fa pre next).file q = s.file q := by
  cases pre with
  | none => exact Fs.file_setFile_ne _ _ hfa
  | some p => exact Fs.file_setFile_ne _ _ fun h => hpre (by rw [h])

/-- The loop of `delete_file_from_fa` when the node is in the list: one link is
redirected, from its predecessor to its successor. -/
theorem unlinkSib_present {fa : FileRef} {i : Fin 100} :
    ∀ {f : Forest (Fin 100)} {s : Fs} {p pre : Option FileRef} {n : Nat} {found : Bool},
      Linked s.filelist fa p f → f.labels.Nodup → f.tops.length < n → i ∈ f.tops →
      (∀ x ∈ f.labels, .slot x ≠ fa) → (∀ x ∈ f.labels, pre ≠ some (.slot x)) →
      unlinkSib fa (.slot i) n s p pre found =
        .ok (true, relink s fa (predTop f i pre) (s.filelist i).nextSib)
  | .nil, _, _, _, _, _, _, _, _, hi, _, _ => absurd hi List.not_mem_nil
  | .cons _ _ _, _, _, _, 0, _, _, _, hlen, _, _, _ => absurd hlen (Nat.not_lt_zero _)
  | .cons a kids sibs, s, p, pre, n + 1, found, h, hn, hlen, hi, hfa, hpre => by
    obtain ⟨rfl, -, -, -, hs⟩ := h
    obtain ⟨-, has, -, hns, -⟩ := Forest.nodup_cons_iff.mp hn
    have hsub : ∀ x ∈ sibs.labels, x ∈ (Forest.cons a kids sibs).labels := fun x hx =>
      List.mem_cons_of_mem _ (List.mem_append_right _ hx)
    have hlen' : sibs.tops.length < n := by
      simp only [Forest.tops, List.length_cons] at hlen
      omega
    by_cases hai : a = i
    · subst hai
      have hkeep : ∀ x ∈ (Forest.cons a kids sibs).labels,
          (relink s fa pre (s.filelist a).nextSib).filelist x = s.filelist x := by
        intro x hx
        have := file_relink_of_ne s fa pre (s.filelist a).nextSib (hfa x hx) (hpre x hx)
        rwa [Fs.file_slot, Fs.file_slot] at this
      have hs' : Linked (relink s fa pre (s.filelist a).nextSib).filelist fa
          (s.filelist a).nextSib sibs := hs.congr fun x hx => by
        rw [hkeep x (hsub x hx)]
        exact SameLinks.refl _
      have hfile : (relink s fa pre (s.filelist a).nextSib).file (.slot a) = s.filelist a := by
        rw [Fs.file_slot, hkeep a (List.mem_cons_self ..)]
      rw [unlinkSib, if_pos rfl, predTop, if_pos rfl]
      show unlinkSib fa (.slot a) n _ ((relink s fa pre (s.filelist a).nextSib).file
        (.slot a)).nextSib _ true = _
      rw [hfile]
      refine unlinkSib_absent fa _ true _ hs' hlen' fun x hx he => ?_
      cases he
      exact has (Forest.tops_subset_labels hx)
    · have hi' : i ∈ sibs.tops := by
        rcases List.mem_cons.mp hi with rfl | hi
        · exact absurd rfl hai
        · exact hi
      rw [unlinkSib, if_neg (by simpa using hai), predTop, if_neg hai]
      refine unlinkSib_present hs hns hlen' hi' (fun x hx => hfa x (hsub x hx)) ?_
      intro x hx he
      cases he
      exact has hx

/-! ## Taking a node out of a sibling list -/

/-- The predecessor is `pre` or a node of the list. -/
theorem predTop_cases (i : Fin 100) : ∀ (f : Forest (Fin 100)) (pre : Option FileRef),
    predTop f i pre = pre ∨ ∃ x ∈ f.tops, predTop f i pre = some (.slot x)
  | .nil, pre => .inl rfl
  | .cons a kids sibs, pre => by
    rw [predTop]
    by_cases ha : a = i
    · rw [if_pos ha]
      exact .inl rfl
    · rw [if_neg ha]
      rcases predTop_cases i sibs (some (.slot a)) with h | ⟨x, hx, h⟩
      · exact .inr ⟨a, List.mem_cons_self .., h⟩
      · exact .inr ⟨x, List.mem_cons_of_mem _ hx, h⟩

/-- The predecessor of the first node of the second part lies in the first part. -/
theorem predTop_append {i : Fin 100} {kids g : Forest (Fin 100)} : ∀ {f : Forest (Fin 100)}
    {pre : Option FileRef}, i ∉ f.tops →
    predTop (f.append (.cons i kids g)) i pre = pre ∨
      ∃ x ∈ f.tops, predTop (f.append (.cons i kids g)) i pre = some (.slot x)
  | .nil, pre, _ => .inl (by rw [Forest.append, predTop, if_pos rfl])
  | .cons a kids' sibs, pre, h => by
    simp only [Forest.tops, List.mem_cons, not_or] at h
    rw [Forest.append, predTop, if_neg (fun e => h.1 e.symm)]
    rcases predTop_append h.2 with he | ⟨x, hx, he⟩
    · exact .inr ⟨a, List.mem_cons_self .., he⟩
    · exact .inr ⟨x, List.mem_cons_of_mem _ hx, he⟩

/-- A node of the list is not its own predecessor. -/
theorem predTop_ne {i : Fin 100} : ∀ {f : Forest (Fin 100)} {pre : Option FileRef},
    f.labels.Nodup → i ∈ f.tops → pre ≠ some (.slot i) → predTop f i pre ≠ some (.slot i)
  | .cons a kids sibs, pre, hn, hi, hpre => by
    obtain ⟨-, -, -, hns, -⟩ := Forest.nodup_cons_iff.mp hn
    rw [predTop]
    by_cases ha : a = i
    · rw [if_pos ha]
      exact hpre
    · rw [if_neg ha]
      refine predTop_ne hns ?_ (by simpa using ha)
      rcases List.mem_cons.mp hi with rfl | hi
      · exact absurd rfl ha
      · exact hi

/-- `relink` behind a predecessor changes its sibling link only. -/
theorem relink_some (s : Fs) (fa : FileRef) (q : Fin 100) (next : Option FileRef) :
    relink s fa (some (.slot q)) next =
      s.setFile (.slot q) { s.filelist q with nextSib := next } := rfl

/-- What is behind the node `q` when the list behind it loses the node `i`. -/
theorem Linked.relink_behind {fa : FileRef} {i : Fin 100} {s : Fs} :
    ∀ {f : Forest (Fin 100)} {q : Fin 100}, Linked s.filelist fa (s.filelist q).nextSib f →
      f.labels.Nodup → q ∉ f.labels → i ∈ f.tops →
      Linked (relink s fa (predTop f i (some (.slot q))) (s.filelist i).nextSib).filelist fa
        ((relink s fa (predTop f i (some (.slot q))) (s.filelist i).nextSib).filelist q).nextSib
        (f.removeTop i)
  | .nil, _, _, _, _, hi => absurd hi List.not_mem_nil
  | .cons a kids sibs, q, h, hn, hq, hi => by
    obtain ⟨hp, hu, hfa, hk, hs⟩ := h
    obtain ⟨hak, has, hnk, hns, hd⟩ := Forest.nodup_cons_iff.mp hn
    have hqa : q ≠ a := fun he => hq (he ▸ List.mem_cons_self ..)
    have hqk : q ∉ kids.labels := fun hm =>
      hq (List.mem_cons_of_mem _ (List.mem_append_left _ hm))
    have hqs : q ∉ sibs.labels := fun hm =>
      hq (List.mem_cons_of_mem _ (List.mem_append_right _ hm))
    by_cases hai : a = i
    · subst hai
      rw [predTop, if_pos rfl, Forest.removeTop, if_pos rfl, relink_some]
      simp only [Fs.filelist_setFile_slot, Function.update_self]
      refine hs.congr fun x hx => ?_
      have hxq : x ≠ q := fun he => hqs (he ▸ hx)
      rw [Function.update_of_ne hxq]
      exact SameLinks.refl _
    · have hi' : i ∈ sibs.tops := (List.mem_cons.mp hi).resolve_left fun he => hai he.symm
      have ih := Linked.relink_behind hs hns has hi'
      rw [predTop, if_neg hai, Forest.removeTop, if_neg hai]
      -- the redirected link is that of `a` or of a later sibling
      obtain ⟨x, hx, he⟩ : ∃ x, (x = a ∨ x ∈ sibs.labels) ∧
          predTop sibs i (some (.slot a)) = some (.slot x) := by
        rcases predTop_cases i sibs (some (.slot a)) with h | ⟨x, hx, h⟩
        · exact ⟨a, .inl rfl, h⟩
        · exact ⟨x, .inr (Forest.tops_subset_labels hx), h⟩
      have hxq : q ≠ x := by
        rintro rfl
        exact hx.elim hqa hqs
      have hxk : ∀ y ∈ kids.labels, y ≠ x := by
        rintro y hy rfl
        exact hx.elim (fun he => hak (he ▸ hy)) (fun hs => hd hy hs)
      rw [he, relink_some] at ih ⊢
      simp only [Fs.filelist_setFile_slot] at ih ⊢
      rw [Function.update_of_ne hxq]
      by_cases hax : a = x
      · subst hax
        rw [Function.update_self] at ih
        refine ⟨hp, ?_⟩
        rw [Function.update_self]
        refine ⟨hu, hfa, hk.congr fun y hy => ?_, ih⟩
        rw [Function.update_of_ne (hxk y hy)]
        exact SameLinks.refl _
      · rw [Function.update_of_ne hax] at ih
        refine ⟨hp, ?_⟩
        rw [Function.update_of_ne hax]
        refine ⟨hu, hfa, hk.congr fun y hy => ?_, ih⟩
        rw [Function.update_of_ne (hxk y hy)]
        exact SameLinks.refl _

/-- The children of `fa` after the node `i` has been taken out. -/
theorem Linked.relink_tops {fa : FileRef} {i : Fin 100} {s : Fs} {f : Forest (Fin 100)}
    (h : Linked s.filelist fa (s.file fa).fstSon f) (hn : f.labels.Nodup)
    (hfa : ∀ x ∈ f.labels, .slot x ≠ fa) (hi : i ∈ f.tops) :
    Linked (relink s fa (predTop f i none) (s.filelist i).nextSib).filelist fa
      ((relink s fa (predTop f i none) (s.filelist i).nextSib).file fa).fstSon
      (f.removeTop i) := by
  cases f with
  | nil => exact absurd hi List.not_mem_nil
  | cons a kids sibs =>
    obtain ⟨hp, hu, hfa', hk, hs⟩ := h
    obtain ⟨hak, has, hnk, hns, hd⟩ := Forest.nodup_cons_iff.mp hn
    by_cases hai : a = i
    · subst hai
      rw [predTop, if_pos rfl, Forest.removeTop, if_pos rfl]
      show Linked (s.setFile fa { s.file fa with fstSon := (s.filelist a).nextSib }).filelist fa
        ((s.setFile fa { s.file fa with fstSon := (s.filelist a).nextSib }).file fa).fstSon sibs
      rw [Fs.file_setFile_self]
      refine hs.congr fun x hx => ?_
      have hx' : FileRef.slot x ≠ fa :=
        hfa x (List.mem_cons_of_mem _ (List.mem_append_right _ hx))
      have hkeep := Fs.file_setFile_ne s { s.file fa with fstSon := (s.filelist a).nextSib } hx'
      rw [Fs.file_slot, Fs.file_slot] at hkeep
      rw [hkeep]
      exact SameLinks.refl _
    · have hi' : i ∈ sibs.tops := (List.mem_cons.mp hi).resolve_left fun he => hai he.symm
      have hb := Linked.relink_behind hs hns has hi'
      rw [predTop, if_neg hai, Forest.removeTop, if_neg hai]
      obtain ⟨x, hx, he⟩ : ∃ x, x ∈ (Forest.cons a kids sibs).tops ∧
          predTop sibs i (some (.slot a)) = some (.slot x) := by
        rcases predTop_cases i sibs (some (.slot a)) with h | ⟨x, hx, h⟩
        · exact ⟨a, List.mem_cons_self .., h⟩
        · exact ⟨x, List.mem_cons_of_mem _ hx, h⟩
      rw [he, relink_some] at hb ⊢
      have hxfa : fa ≠ .slot x := (hfa x (Forest.tops_subset_labels hx)).symm
      have hxk : ∀ y ∈ kids.labels, y ≠ x := by
        rintro y hy rfl
        rcases List.mem_cons.mp hx with rfl | hx
        · exact hak hy
        · exact hd hy (Forest.tops_subset_labels hx)
      rw [Fs.file_setFile_ne _ _ hxfa]
      refine ⟨hp, ?_⟩
      simp only [Fs.filelist_setFile_slot] at hb ⊢
      have ha : SameLinks (Function.update s.filelist x
          { s.filelist x with nextSib := (s.filelist i).nextSib } a)
          { s.filelist a with nextSib := (Function.update s.filelist x
            { s.filelist x with nextSib := (s.filelist i).nextSib } a).nextSib } := by
        by_cases hax : a = x
        · subst hax
          rw [Function.update_self]
          exact ⟨rfl, rfl, rfl, rfl⟩
        · rw [Function.update_of_ne hax]
          exact ⟨rfl, rfl, rfl, rfl⟩
      refine ⟨ha.used.trans hu, ha.fa.trans hfa', ?_, hb⟩
      rw [ha.fstSon]
      refine hk.congr fun y hy => ?_
      rw [Function.update_of_ne (hxk y hy)]
      exact SameLinks.refl _

/-- The same node up to its links to the first son and the next sibling. -/
def Relink (a b : File) : Prop :=
  ∃ son sib, b = { a with fstSon := son, nextSib := sib }

theorem Relink.refl (a : File) : Relink a a := ⟨a.fstSon, a.nextSib, rfl⟩

/-- A redirected link changes one link of one node: the first son of `fa`, or the next
sibling of the predecessor. -/
theorem relink_file (s : Fs) (fa : FileRef) (pre next : Option FileRef) (q : FileRef) :
    Relink (s.file q) ((relink s fa pre next).file q) ∧
      (q ≠ fa → ((relink s fa pre next).file q).fstSon = (s.file q).fstSon) ∧
      (pre ≠ some q → ((relink s fa pre next).file q).nextSib = (s.file q).nextSib) := by
  cases pre with
  | none =>
    show Relink (s.file q) ((s.setFile fa { s.file fa with fstSon := next }).file q) ∧ _
    by_cases hq : q = fa
    · subst hq
      rw [Fs.file_setFile_self]
      exact ⟨⟨_, _, rfl⟩, fun h => absurd rfl h, fun _ => by rw [relink, Fs.file_setFile_self]⟩
    · rw [relink, Fs.file_setFile_ne _ _ hq]
      exact ⟨Relink.refl _, fun _ => rfl, fun _ => rfl⟩
  | some p =>
    show Relink (s.file q) ((s.setFile p { s.file p with nextSib := next }).file q) ∧ _
    by_cases hq : q = p
    · subst hq
      rw [Fs.file_setFile_self]
      exact ⟨⟨_, _, rfl⟩, fun _ => by rw [relink, Fs.file_setFile_self], fun h => absurd rfl h⟩
    · rw [relink, Fs.file_setFile_ne _ _ hq]
      exact ⟨Relink.refl _, fun _ => rfl, fun _ => rfl⟩

theorem relink_rest (s : Fs) (fa : FileRef) (pre next : Option FileRef) :
    relink s fa pre next = { s with
      rootfile := (relink s fa pre next).rootfile
      filelist := (relink s fa pre next).filelist } := by
  cases pre with
  | none => cases fa <;> rfl
  | some p => cases p <;> rfl

/-- **`delete_file_from_fa` on a child** redirects one link. -/
theorem deleteFileFromFa_ok {fa : FileRef} {i : Fin 100} {s : Fs} {f : Forest (Fin 100)}
    (h : Linked s.filelist fa (s.file fa).fstSon f) (hn : f.labels.Nodup)
    (hlen : f.tops.length < sibFuel) (hfa : ∀ x ∈ f.labels, .slot x ≠ fa) (hi : i ∈ f.tops) :
    deleteFileFromFa s fa (.slot i) =
      .ok (true, relink s fa (predTop f i none) (s.filelist i).nextSib) := by
  rw [deleteFileFromFa, unlinkSib_present h hn hlen hi hfa (fun x _ he => by cases he)]
  rfl

/-- `delete_file_from_fa` on a node that is not a child prints and fails. -/
theorem deleteFileFromFa_absent {fa r : FileRef} {s : Fs} {f : Forest (Fin 100)}
    (h : Linked s.filelist fa (s.file fa).fstSon f) (hlen : f.tops.length < sibFuel)
    (hne : ∀ i ∈ f.tops, .slot i ≠ r) :
    ∃ msg, deleteFileFromFa s fa r = .ok (false, s.printf msg) := by
  rw [deleteFileFromFa, unlinkSib_absent fa r false s h hlen hne]
  by_cases ha : (s.file r).attr = 0x10
  · exact ⟨_, if_pos ha⟩
  · exact ⟨_, if_neg ha⟩

end GwOS
