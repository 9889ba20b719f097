import GwOS.Filesystem.Tree
import GwOS.Filesystem.Fsfunc

/-!
# What a deletion does to the nodes

The part of `delete_file` and `delete_directory` that is about the nodes in memory, and
holds whatever is on the disk. `Unlinked` is what either of them leaves when it returns:
outside the subtree of the removed node one link has been redirected and nothing else has
changed. `deleteDirectory_unlinks` proves it by induction on the depth, with
`deleteSons_unlinks` as the loop over the children.
-/

namespace GwOS

/-- The nodes that the recursion of `delete_directory` deletes: no name with a leading
dot. -/
def Named (file : File) : Prop := file.filename.get 0 ≠ 0x2E

/-- The node `i` has been removed from the children `F` of `fa`. -/
structure Unlinked (s s' : Fs) (fa : FileRef) (F : Forest (Fin 100)) (i : Fin 100) : Prop where
  outside : ∀ q, (∀ x ∈ i :: (F.kidsAt i).labels, q ≠ .slot x) →
    s'.file q = (relink s fa (predTop F i none) (s.filelist i).nextSib).file q
  sib : (s'.filelist i).nextSib = (s.filelist i).nextSib
  unused : (s'.filelist i).used = false
  rest : s' = { s with sdb := s'.sdb, rootfile := s'.rootfile, filelist := s'.filelist }

/-- The children `F` of the node `i` have been processed. -/
structure SonsKept (s s' : Fs) (i : Fin 100) (F : Forest (Fin 100)) : Prop where
  outside : ∀ q, q ≠ .slot i → (∀ x ∈ F.labels, q ≠ .slot x) → s'.file q = s.file q
  dir : ∃ son, s'.filelist i = { s.filelist i with fstSon := son }
  rest : s' = { s with sdb := s'.sdb, rootfile := s'.rootfile, filelist := s'.filelist }

theorem SonsKept.refl (s : Fs) (i : Fin 100) (F : Forest (Fin 100)) : SonsKept s s i F :=
  ⟨fun _ _ _ => rfl, ⟨_, rfl⟩, rfl⟩

/-! ## One node -/

/-- The predecessor of a node is not below it. -/
theorem predTop_ne_below {F : Forest (Fin 100)} {i x : Fin 100} (hn : F.labels.Nodup)
    (hi : i ∈ F.tops) (hx : x ∈ i :: (F.kidsAt i).labels) :
    predTop F i none ≠ some (.slot x) := by
  rcases List.mem_cons.mp hx with rfl | hx
  · exact predTop_ne hn hi (by simp)
  · intro he
    rcases predTop_cases i F none with h | ⟨y, hy, h⟩
    · rw [h] at he
      cases he
    · rw [h] at he
      cases he
      exact Forest.tops_not_mem_kidsAt hn hi hy hx

/-- What is below the node is not what `delete_file_from_fa` changes. -/
theorem relink_below {s : Fs} {fa : FileRef} {F : Forest (Fin 100)} {i x : Fin 100}
    (hn : F.labels.Nodup) (hfa : ∀ x ∈ F.labels, .slot x ≠ fa) (hi : i ∈ F.tops)
    (hx : x ∈ i :: (F.kidsAt i).labels) :
    (relink s fa (predTop F i none) (s.filelist i).nextSib).filelist x = s.filelist x := by
  have hxF : x ∈ F.labels := by
    rcases List.mem_cons.mp hx with rfl | hx
    · exact Forest.tops_subset_labels hi
    · exact Forest.kidsAt_labels_subset hx
  have hkeep := file_relink_of_ne s fa (predTop F i none) (s.filelist i).nextSib (hfa x hxF)
    (predTop_ne_below hn hi hx)
  rwa [Fs.file_slot, Fs.file_slot] at hkeep

section Node

variable {s s2 : Fs} {fa : FileRef} {F : Forest (Fin 100)} {i : Fin 100}

/-- The last two steps of both functions: the chain is released, whatever that does to the
disk, and the slot is freed. -/
theorem SonsKept.unlinked (hfa : ∀ x ∈ F.labels, .slot x ≠ fa) (hn : F.labels.Nodup)
    (hi : i ∈ F.tops)
    (h2 : SonsKept (relink s fa (predTop F i none) (s.filelist i).nextSib) s2 i (F.kidsAt i))
    (d : Disk) : Unlinked s (markUnused { s2 with sdb := d } (.slot i)) fa F i := by
  have hself := relink_below (s := s) hn hfa hi (List.mem_cons_self ..)
  generalize hs1 : relink s fa (predTop F i none) (s.filelist i).nextSib = s1 at h2 hself
  obtain ⟨son, hdir⟩ := h2.dir
  rw [hself] at hdir
  refine ⟨?_, ?_, ?_, ?_⟩
  · intro q hq
    rw [markUnused, Fs.file_setFile_ne _ _ (hq i (List.mem_cons_self ..)), Fs.file_setSdb, hs1]
    exact h2.outside q (hq i (List.mem_cons_self ..)) fun x hx =>
      hq x (List.mem_cons_of_mem _ hx)
  · rw [markUnused, Fs.filelist_setFile_slot, Function.update_self]
    show (s2.filelist i).nextSib = _
    rw [hdir]
  · rw [markUnused, Fs.filelist_setFile_slot, Function.update_self]
  · rw [h2.rest, ← hs1, relink_rest]
    rfl

/-- `clear_file` writes to the disk only. -/
theorem clearFile_disk (s : Fs) (r : FileRef) :
    Returns (clearFile s r) fun s' => ∃ d, s' = { s with sdb := d } := by
  unfold clearFile
  exact .bind .any fun d _ => .ok ⟨d, rfl⟩

/-- `delete_file` on a child of `fa`. -/
theorem deleteFile_unlinks (h : Linked s.filelist fa (s.file fa).fstSon F) (hn : F.labels.Nodup)
    (hlen : F.tops.length < sibFuel) (hfa : ∀ x ∈ F.labels, .slot x ≠ fa) (hi : i ∈ F.tops) :
    Returns (deleteFile s fa (.slot i)) fun r => Unlinked s r.2 fa F i := by
  unfold deleteFile
  rw [deleteFileFromFa_ok h hn hlen hfa hi]
  show Returns (clearFile _ (.slot i) >>= _) _
  refine .bind (clearFile_disk _ _) fun s2 hs2 => ?_
  obtain ⟨d, rfl⟩ := hs2
  exact .ok (SonsKept.unlinked hfa hn hi (.refl _ i _) d)

end Node

/-- The remaining children of `fa`. -/
theorem Unlinked.linked {s s' : Fs} {fa : FileRef} {F : Forest (Fin 100)} {i : Fin 100}
    (hg : Unlinked s s' fa F i)
    (h : Linked s.filelist fa (s.file fa).fstSon F) (hn : F.labels.Nodup)
    (hfa : ∀ x ∈ F.labels, .slot x ≠ fa) (hi : i ∈ F.tops) :
    Linked s'.filelist fa (s'.file fa).fstSon (F.removeTop i) := by
  have hsub : ∀ x ∈ i :: (F.kidsAt i).labels, x ∈ F.labels := by
    intro x hx
    rcases List.mem_cons.mp hx with rfl | hx
    · exact Forest.tops_subset_labels hi
    · exact Forest.kidsAt_labels_subset hx
  rw [hg.outside fa fun x hx => (hfa x (hsub x hx)).symm]
  refine (Linked.relink_tops h hn hfa hi).congr fun x hx => ?_
  obtain ⟨-, hxi, hxk⟩ := (Forest.mem_removeTop hn hi).mp hx
  have hkeep := hg.outside (.slot x) fun y hy => by
    rintro ⟨⟩
    rcases List.mem_cons.mp hy with hy | hy
    · exact hxi hy
    · exact hxk hy
  rw [Fs.file_slot, Fs.file_slot] at hkeep
  rw [hkeep]
  exact SameLinks.refl _

/-! ## The loop over the children -/

section Sons

variable {i : Fin 100}

/-- The child list of `i` while its children are deleted: `P` has been passed, `R` is
still to come. -/
structure SonList (s : Fs) (i : Fin 100) (p : Option FileRef) (P R : Forest (Fin 100)) : Prop where
  linked : Linked s.filelist (.slot i) (s.filelist i).fstSon (P.append R)
  nodup : (P.append R).labels.Nodup
  short : (P.append R).tops.length < sibFuel
  self : ∀ y ∈ (P.append R).labels, FileRef.slot y ≠ .slot i
  rest : Linked s.filelist (.slot i) p R

variable {s s1 : Fs} {P xk xs : Forest (Fin 100)} {x : Fin 100} {p : Option FileRef}

/-- The children of `i` once it has been unlinked itself, before the first of them. -/
theorem SonList.first {fa : FileRef} {F : Forest (Fin 100)}
    (h : Linked s.filelist fa (s.file fa).fstSon F) (hnd : F.labels.Nodup)
    (hfa : ∀ x ∈ F.labels, .slot x ≠ fa) (hi : i ∈ F.tops) :
    let s1 := relink s fa (predTop F i none) (s.filelist i).nextSib
    SonList s1 i (s1.filelist i).fstSon .nil (F.kidsAt i) := by
  intro s1
  have hilab := Forest.tops_subset_labels hi
  have hkeep : ∀ x ∈ i :: (F.kidsAt i).labels, s1.filelist x = s.filelist x :=
    fun x hx => relink_below hnd hfa hi hx
  have hkids : Linked s1.filelist (.slot i) (s1.filelist i).fstSon (F.kidsAt i) := by
    rw [hkeep i (List.mem_cons_self ..)]
    refine (h.kidsAt hilab).congr fun x hx => ?_
    rw [hkeep x (List.mem_cons_of_mem _ hx)]
    exact SameLinks.refl _
  have hkn : (F.kidsAt i).labels.Nodup := Forest.kidsAt_nodup hnd
  refine ⟨hkids, hkn, ?_, ?_, hkids⟩
  · have h1 := Forest.tops_length_le (F.kidsAt i)
    have h2 := hkn.length_le_card
    rw [Fintype.card_fin] at h2
    show (F.kidsAt i).tops.length < sibFuel
    unfold sibFuel
    omega
  · rintro y hy ⟨⟩
    exact Forest.not_mem_kidsAt_self hnd hilab hy

/-- The node at hand, relative to the two parts of the list. -/
theorem SonList.head (h : SonList s i p P (.cons x xk xs)) :
    p = some (.slot x) ∧ x ∉ P.labels ∧ (∀ y ∈ xs.labels, y ∉ P.labels) ∧
      (∀ y ∈ x :: xk.labels, y ∉ P.labels ∧ y ∉ xs.labels) ∧
      x ∈ (P.append (.cons x xk xs)).tops := by
  have hn := h.nodup
  rw [Forest.labels_append, List.nodup_append'] at hn
  obtain ⟨-, hR, hd⟩ := hn
  obtain ⟨hxk, hxs, -, -, hd'⟩ := Forest.nodup_cons_iff.mp hR
  have hmem : ∀ y, y = x ∨ y ∈ xk.labels ∨ y ∈ xs.labels → y ∉ P.labels := by
    intro y hy hm
    refine hd hm ?_
    rcases hy with rfl | hy
    · exact List.mem_cons_self ..
    · exact List.mem_cons_of_mem _ (List.mem_append.mpr hy)
  refine ⟨h.rest.1, hmem x (.inl rfl), fun y hy => hmem y (.inr (.inr hy)), fun y hy => ?_, ?_⟩
  · rcases List.mem_cons.mp hy with rfl | hy
    · exact ⟨hmem y (.inl rfl), hxs⟩
    · exact ⟨hmem y (.inr (.inl hy)), fun hys => hd' hy hys⟩
  · rw [Forest.tops_append]
    exact List.mem_append_right _ (List.mem_cons_self ..)

/-- Passing over a node without deleting it. -/
theorem SonList.pass (h : SonList s i p P (.cons x xk xs)) :
    SonList s i (s.filelist x).nextSib (P.append (.cons x xk .nil)) xs := by
  have happ := Forest.append_cons x xk xs P
  exact ⟨happ ▸ h.linked, happ ▸ h.nodup, happ ▸ h.short, happ ▸ h.self, h.rest.2.2.2.2⟩

/-- Outside the deleted subtree and the passed nodes nothing has changed. -/
theorem SonList.keep (h : SonList s i p P (.cons x xk xs))
    (hg : Unlinked s s1 (.slot i) (P.append (.cons x xk xs)) x) {q : FileRef}
    (hqi : q ≠ .slot i) (hqP : ∀ y ∈ P.labels, q ≠ .slot y)
    (hqx : ∀ y ∈ x :: xk.labels, q ≠ .slot y) : s1.file q = s.file q := by
  obtain ⟨-, hxP, -, -, -⟩ := h.head
  have hxt : x ∉ P.tops := fun hm => hxP (Forest.tops_subset_labels hm)
  rw [hg.outside q (by rw [Forest.kidsAt_append hxP]; exact hqx)]
  refine file_relink_of_ne s _ _ _ hqi ?_
  rcases predTop_append (g := xs) hxt with he | ⟨y, hy, he⟩
  · rw [he]
    simp
  · rw [he]
    rintro ⟨⟩
    exact hqP y (Forest.tops_subset_labels hy) rfl

/-- The nodes behind the deleted one, with all that is below them. -/
theorem SonList.keepBehind (h : SonList s i p P (.cons x xk xs))
    (hg : Unlinked s s1 (.slot i) (P.append (.cons x xk xs)) x) :
    ∀ y ∈ xs.labels, s1.filelist y = s.filelist y := by
  intro y hy
  obtain ⟨-, -, hxsP, hsub, -⟩ := h.head
  have hyF : y ∈ (P.append (.cons x xk xs)).labels := by
    rw [Forest.labels_append]
    exact List.mem_append_right _ (List.mem_cons_of_mem _ (List.mem_append_right _ hy))
  have hkeep := h.keep hg (q := .slot y) (h.self y hyF)
    (fun z hz => by rintro ⟨⟩; exact hxsP y hy hz)
    (fun z hz => by rintro ⟨⟩; exact (hsub y hz).2 hy)
  rwa [Fs.file_slot, Fs.file_slot] at hkeep

/-- The directory itself keeps everything but its first son. -/
theorem SonList.keepDir (h : SonList s i p P (.cons x xk xs))
    (hg : Unlinked s s1 (.slot i) (P.append (.cons x xk xs)) x) :
    ∃ son, s1.filelist i = { s.filelist i with fstSon := son } := by
  obtain ⟨-, hxP, -, -, -⟩ := h.head
  have hxt : x ∉ P.tops := fun hm => hxP (Forest.tops_subset_labels hm)
  have hout := hg.outside (.slot i) (by
    rw [Forest.kidsAt_append hxP]
    intro y hy
    refine (h.self y ?_).symm
    rw [Forest.labels_append]
    refine List.mem_append_right _ ?_
    rcases List.mem_cons.mp hy with rfl | hy
    · exact List.mem_cons_self ..
    · exact List.mem_cons_of_mem _ (List.mem_append_left _ hy))
  obtain ⟨⟨son, sib, hre⟩, -, hsib⟩ := relink_file s (.slot i)
    (predTop (P.append (.cons x xk xs)) x none) (s.filelist x).nextSib (.slot i)
  have hne : predTop (P.append (.cons x xk xs)) x none ≠ some (.slot i) := by
    rcases predTop_append (g := xs) hxt with he | ⟨y, hy, he⟩
    · rw [he]
      simp
    · rw [he]
      intro hy'
      refine h.self y ?_ (Option.some.inj hy')
      rw [Forest.labels_append]
      exact List.mem_append_left _ (Forest.tops_subset_labels hy)
  have hsib' := hsib hne
  rw [hre] at hsib'
  refine ⟨son, ?_⟩
  rw [Fs.file_slot, hre] at hout
  rw [hout]
  show { s.filelist i with fstSon := son, nextSib := sib } = _
  rw [show sib = (s.filelist i).nextSib from hsib']

/-- Deleting the node at hand. -/
theorem SonList.drop (h : SonList s i p P (.cons x xk xs))
    (hg : Unlinked s s1 (.slot i) (P.append (.cons x xk xs)) x) :
    SonList s1 i (s1.filelist x).nextSib P xs := by
  obtain ⟨-, hxP, -, -, hxt⟩ := h.head
  have hrem : (P.append (.cons x xk xs)).removeTop x = P.append xs :=
    Forest.removeTop_append fun hm => hxP (Forest.tops_subset_labels hm)
  have hlab : (P.append xs).labels.Sublist (P.append (.cons x xk xs)).labels := by
    rw [← hrem]
    exact Forest.removeTop_labels_sublist x _
  refine ⟨?_, h.nodup.sublist hlab, ?_, fun y hy => h.self y (hlab.subset hy), ?_⟩
  · have := hg.linked h.linked h.nodup h.self hxt
    rwa [hrem, Fs.file_slot] at this
  · have := h.short
    simp only [Forest.tops_append, Forest.tops, List.length_append, List.length_cons] at this ⊢
    omega
  · rw [hg.sib]
    refine h.rest.2.2.2.2.congr fun y hy => ?_
    rw [h.keepBehind hg y hy]
    exact SameLinks.refl _

/-- The node at hand is deleted, then the loop goes on. -/
theorem SonsKept.drop {s2 : Fs} (h : SonList s i p P (.cons x xk xs))
    (hg : Unlinked s s1 (.slot i) (P.append (.cons x xk xs)) x)
    (h2 : SonsKept s1 s2 i (P.append xs)) : SonsKept s s2 i (P.append (.cons x xk xs)) := by
  refine ⟨?_, ?_, ?_⟩
  · intro q hqi hq
    have hqP : ∀ y ∈ P.labels, q ≠ .slot y := fun y hy => hq y (by
      rw [Forest.labels_append]
      exact List.mem_append_left _ hy)
    have hqR : ∀ y ∈ (Forest.cons x xk xs).labels, q ≠ .slot y := fun y hy => hq y (by
      rw [Forest.labels_append]
      exact List.mem_append_right _ hy)
    have h12 : s2.file q = s1.file q := by
      refine h2.outside q hqi fun y hy => ?_
      rw [Forest.labels_append] at hy
      rcases List.mem_append.mp hy with hy | hy
      · exact hqP y hy
      · exact hqR y (List.mem_cons_of_mem _ (List.mem_append_right _ hy))
    refine h12.trans (h.keep hg hqi hqP fun y hy => hqR y ?_)
    rcases List.mem_cons.mp hy with rfl | hy
    · exact List.mem_cons_self ..
    · exact List.mem_cons_of_mem _ (List.mem_append_left _ hy)
  · obtain ⟨son, hd1⟩ := h.keepDir hg
    obtain ⟨son', hd2⟩ := h2.dir
    exact ⟨son', by rw [hd2, hd1]⟩
  · rw [h2.rest, hg.rest]

/-- The node at hand is passed over. -/
theorem SonsKept.pass {s2 : Fs} (h2 : SonsKept s s2 i ((P.append (.cons x xk .nil)).append xs)) :
    SonsKept s s2 i (P.append (.cons x xk xs)) := by
  rw [← Forest.append_cons]
  exact h2

/-- **The loop over the children**, for a recursive call that unlinks subtrees. -/
theorem deleteSons_unlinks {r : Fs → FileRef → FileRef → Except Fault (Bool × Fs)}
    (hrec : ∀ {s : Fs} {F : Forest (Fin 100)} {x : Fin 100},
      Linked s.filelist (.slot i) (s.filelist i).fstSon F → F.labels.Nodup →
      F.tops.length < sibFuel → (∀ y ∈ F.labels, FileRef.slot y ≠ .slot i) → x ∈ F.tops →
      Returns (r s (.slot i) (.slot x)) fun a => Unlinked s a.2 (.slot i) F x) :
    ∀ {R P : Forest (Fin 100)} {s : Fs} {p : Option FileRef} {m : Nat}, SonList s i p P R →
      Returns (deleteSons r (.slot i) m s p) fun s' => SonsKept s s' i (P.append R)
  | _, _, _, _, 0, _ => .error _
  | .nil, P, s, p, m + 1, h => by
    rw [show p = none from h.rest]
    exact .ok (.refl s i _)
  | .cons x xk xs, P, s, p, m + 1, h => by
    obtain ⟨rfl, -, -, -, hxt⟩ := h.head
    rw [deleteSons, deleteSon]
    by_cases hx : (s.file (.slot x)).filename.get 0 ≠ 0x2E
    · have hone : Returns (if (s.file (.slot x)).attr = 0x10 then r s (.slot i) (.slot x)
          else deleteFile s (.slot i) (.slot x)) fun a =>
            Unlinked s a.2 (.slot i) (P.append (.cons x xk xs)) x := by
        split
        · exact hrec h.linked h.nodup h.short h.self hxt
        · exact deleteFile_unlinks h.linked h.nodup h.short h.self hxt
      rw [if_pos hx]
      refine .bind (P := fun s1 => Unlinked s s1 (.slot i) (P.append (.cons x xk xs)) x) ?_ ?_
      · exact hone.map fun a ha => ha
      · intro s1 hg
        exact (deleteSons_unlinks hrec (h.drop hg)).mono fun s2 h2 => h2.drop h hg
    · rw [if_neg hx]
      exact (deleteSons_unlinks hrec h.pass).mono fun s2 h2 => h2.pass

/-- **`delete_directory` with `rc`**, on a child of `fa`. -/
theorem deleteDirectory_unlinks : ∀ {n : Nat} {s : Fs} {fa : FileRef} {F : Forest (Fin 100)}
    {i : Fin 100}, Linked s.filelist fa (s.file fa).fstSon F → F.labels.Nodup →
    F.tops.length < sibFuel → (∀ x ∈ F.labels, .slot x ≠ fa) → i ∈ F.tops →
    Returns (deleteDirectory n s fa (.slot i) true) fun r => Unlinked s r.2 fa F i
  | 0, _, _, _, _, _, _, _, _, _ => .error _
  | n + 1, s, fa, F, i, h, hnd, hlen, hfa, hi => by
    unfold deleteDirectory
    rw [deleteFileFromFa_ok h hnd hlen hfa hi]
    have hlist := SonList.first h hnd hfa hi
    generalize hs1 : relink s fa (predTop F i none) (s.filelist i).nextSib = s1 at hlist
    show Returns (deleteSons _ (.slot i) sibFuel s1 (s1.filelist i).fstSon >>= _) _
    refine .bind (deleteSons_unlinks
      (fun h hnd hlen hfa hi => deleteDirectory_unlinks h hnd hlen hfa hi) hlist)
      fun s2 h2 => .bind (clearFile_disk s2 _) fun s3 hs3 => .ok ?_
    obtain ⟨d, rfl⟩ := hs3
    rw [← hs1] at h2
    exact h2.unlinked hfa hnd hi d

end Sons

/-! ## The whole tree -/

section Whole

variable {s s' : Fs} {f : Forest (Fin 100)} {r : FileRef} {i : Fin 100}

theorem MemTree.child_ne (h : MemTree s f) (hr : HasRef f r) :
    ∀ x ∈ (childrenOf f r).labels, FileRef.slot x ≠ r := fun _ hx => h.self_not_mem hr hx

/-- The nodes that are left. -/
theorem Unlinked.mem_labels (h : MemTree s f) (hr : HasRef f r) (hi : i ∈ (childrenOf f r).tops)
    {x : Fin 100} : x ∈ (replaceChildren f r ((childrenOf f r).removeTop i)).labels ↔
      x ∈ f.labels ∧ x ∉ i :: ((childrenOf f r).kidsAt i).labels := by
  have hn := h.children_nodup r
  rw [mem_replaceChildren h hr, Forest.mem_removeTop hn hi, List.mem_cons, not_or]
  constructor
  · rintro (⟨hx, hxi, hxk⟩ | ⟨hx, hxc⟩)
    · exact ⟨childrenOf_subset hx, hxi, hxk⟩
    · refine ⟨hx, ?_, fun hxk => hxc (Forest.kidsAt_labels_subset hxk)⟩
      rintro rfl
      exact hxc (Forest.tops_subset_labels hi)
  · rintro ⟨hx, hxi, hxk⟩
    by_cases hxc : x ∈ (childrenOf f r).labels
    · exact .inl ⟨hxc, hxi, hxk⟩
    · exact .inr ⟨hx, hxc⟩

/-- The nodes that are left keep everything but their links. -/
theorem Unlinked.relink (hg : Unlinked s s' r (childrenOf f r) i) {q : FileRef}
    (hq : ∀ x ∈ i :: ((childrenOf f r).kidsAt i).labels, q ≠ .slot x) :
    Relink (s.file q) (s'.file q) := by
  rw [hg.outside q hq]
  exact (relink_file ..).1

/-- The tree without the subtree. -/
theorem Unlinked.memTree (hg : Unlinked s s' r (childrenOf f r) i) (h : MemTree s f)
    (hr : HasRef f r) (hi : i ∈ (childrenOf f r).tops) :
    MemTree s' (replaceChildren f r ((childrenOf f r).removeTop i)) := by
  have hn := h.children_nodup r
  have hpred : ∀ q, predTop (childrenOf f r) i none = some q →
      ∃ x ∈ (childrenOf f r).labels, q = .slot x := by
    intro q hq
    rcases predTop_cases i (childrenOf f r) none with he | ⟨x, hx, he⟩
    · rw [he] at hq
      cases hq
    · rw [he] at hq
      exact ⟨x, Forest.tops_subset_labels hx, (Option.some.inj hq).symm⟩
  have hbelow : ∀ x ∈ i :: ((childrenOf f r).kidsAt i).labels, x ∈ (childrenOf f r).labels := by
    intro x hx
    rcases List.mem_cons.mp hx with rfl | hx
    · exact Forest.tops_subset_labels hi
    · exact Forest.kidsAt_labels_subset hx
  refine h.replace hr (hg.linked (h.children hr) hn (h.child_ne hr) hi)
    (hn.sublist (Forest.removeTop_labels_sublist i _)) ?_ ?_ ?_
  · intro hroot
    have hout := hg.outside .rootfile fun x _ => by simp
    show (s'.file .rootfile).fstSon = (s.file .rootfile).fstSon
    rw [hout, (relink_file ..).2.1 hroot.symm]
  · intro x hx hxc
    have hout := hg.outside (.slot x) fun y hy => by
      rintro ⟨⟩
      exact hxc (hbelow x hy)
    obtain ⟨⟨son, sib, hre⟩, hson, hsib⟩ := relink_file s r (predTop (childrenOf f r) i none)
      (s.filelist i).nextSib (.slot x)
    have hne : predTop (childrenOf f r) i none ≠ some (.slot x) := by
      intro he
      obtain ⟨y, hy, ⟨⟩⟩ := hpred _ he
      exact hxc hy
    rw [Fs.file_slot] at hout
    rw [hout]
    refine ⟨by rw [hre]; rfl, by rw [hre]; rfl, hsib hne, fun hxr => hson hxr⟩
  · intro x hx _
    exact (Forest.removeTop_labels_sublist i _).subset hx

end Whole

end GwOS
