import GwOS.Filesystem.Names

/-!
# The slots of the file table

A node takes one of 100 slots and gives it back by `used = false`. The slots in use should be
the nodes of the tree; a slot in use that no list leads to can never be used again
(`SlotsAccounted`).

Creations keep this, `.` and `..` included. Deletions do not: `delete_file` frees one node,
whatever is below it, and the loop of `delete_directory` passes over every name with a leading
dot, so `.` and `..` stay in use when their directory is gone. `freed` is what the loop frees,
and `slotsAccounted_iff` says exactly for which runs the slots stay accounted for: those where
each deleted node has nothing below it that the code forgets. `slots_leaked` is the shortest
run that loses two slots.
-/

namespace GwOS

/-- The slots in use are the nodes that the links reach. -/
def SlotsAccounted (s : Fs) : Prop := ∀ i, (s.filelist i).used = true ↔ Reachable s (.slot i)

/-! ## What a deletion frees -/

/-- The slots of `l` have been given back, and no others. -/
def GaveSlots (s s' : Fs) (l : List (Fin 100)) : Prop :=
  ∀ j, InUse s' (.slot j) ↔ InUse s (.slot j) ∧ j ∉ l

section GaveSlots

variable {s s' s'' : Fs} {l l' : List (Fin 100)}

theorem GaveSlots.of_used (h : ∀ j, (s'.filelist j).used = (s.filelist j).used) :
    GaveSlots s s' [] := by
  intro j
  simp [InUse, h j]

theorem GaveSlots.trans (h : GaveSlots s s' l) (h' : GaveSlots s' s'' l') :
    GaveSlots s s'' (l ++ l') := by
  intro j
  rw [h' j, h j, List.mem_append, not_or, and_assoc]

theorem GaveSlots.markUnused (s : Fs) (i : Fin 100) :
    GaveSlots s (GwOS.markUnused s (.slot i)) [i] := by
  intro j
  by_cases hj : j = i
  · subst hj
    simp [InUse, GwOS.markUnused]
  · simp [InUse, GwOS.markUnused, hj]

theorem relink_used (s : Fs) (fa : FileRef) (pre next : Option FileRef) (j : Fin 100) :
    ((relink s fa pre next).filelist j).used = (s.filelist j).used := by
  obtain ⟨son, sib, hre⟩ := (relink_file s fa pre next (.slot j)).1
  rw [Fs.file_slot, Fs.file_slot] at hre
  rw [hre]

end GaveSlots

instance (file : File) : Decidable (Named file) := by
  unfold Named
  infer_instance

/-- The nodes that the loop of `delete_directory` frees among the children `F`: those with a
name without a leading dot, and of the directories among them what the recursion frees. -/
def freed (s : Fs) : Forest (Fin 100) → List (Fin 100)
  | .nil => []
  | .cons x kids sibs =>
    (if Named (s.filelist x) then x :: (if (s.filelist x).attr = 0x10 then freed s kids else [])
      else []) ++ freed s sibs

theorem freed_congr {s s' : Fs} {F : Forest (Fin 100)}
    (h : ∀ x ∈ F.labels, s'.filelist x = s.filelist x) : freed s' F = freed s F := by
  induction F with
  | nil => rfl
  | cons x kids sibs ihk ihs =>
    rw [freed, freed, h x (List.mem_cons_self ..),
      ihk fun y hy => h y (List.mem_cons_of_mem _ (List.mem_append_left _ hy)),
      ihs fun y hy => h y (List.mem_cons_of_mem _ (List.mem_append_right _ hy))]

theorem freed_subset {s : Fs} {F : Forest (Fin 100)} {x : Fin 100} (hx : x ∈ freed s F) :
    x ∈ F.labels := by
  induction F with
  | nil => exact hx
  | cons y kids sibs ihk ihs =>
    rw [freed] at hx
    rcases List.mem_append.mp hx with hx | hx
    · split at hx
      · rcases List.mem_cons.mp hx with rfl | hx
        · exact List.mem_cons_self ..
        · split at hx
          · exact List.mem_cons_of_mem _ (List.mem_append_left _ (ihk hx))
          · exact absurd hx List.not_mem_nil
      · exact absurd hx List.not_mem_nil
    · exact List.mem_cons_of_mem _ (List.mem_append_right _ (ihs hx))

section Deletion

variable {s : Fs} {fa : FileRef} {F : Forest (Fin 100)} {i : Fin 100}

theorem deleteFile_frees (h : Linked s.filelist fa (s.file fa).fstSon F) (hn : F.labels.Nodup)
    (hlen : F.tops.length < sibFuel) (hfa : ∀ x ∈ F.labels, .slot x ≠ fa) (hi : i ∈ F.tops) :
    Returns (deleteFile s fa (.slot i)) fun r => GaveSlots s r.2 [i] := by
  unfold deleteFile
  rw [deleteFileFromFa_ok h hn hlen hfa hi]
  show Returns (clearFile _ (.slot i) >>= _) _
  refine .bind (clearFile_disk _ _) fun s2 hs2 => .ok ?_
  obtain ⟨d, rfl⟩ := hs2
  exact (GaveSlots.of_used (relink_used s fa _ _)).trans (.markUnused _ i)

/-- **The loop over the children**, for a recursive call that frees what `freed` says. -/
theorem deleteSons_frees {r : Fs → FileRef → FileRef → Except Fault (Bool × Fs)}
    (hrec : ∀ {s : Fs} {F : Forest (Fin 100)} {x : Fin 100},
      Linked s.filelist (.slot i) (s.filelist i).fstSon F → F.labels.Nodup →
      F.tops.length < sibFuel → (∀ y ∈ F.labels, FileRef.slot y ≠ .slot i) → x ∈ F.tops →
      Returns (r s (.slot i) (.slot x)) fun a =>
        Unlinked s a.2 (.slot i) F x ∧ GaveSlots s a.2 (x :: freed s (F.kidsAt x))) :
    ∀ {R P : Forest (Fin 100)} {s : Fs} {p : Option FileRef} {m : Nat}, SonList s i p P R →
      Returns (deleteSons r (.slot i) m s p) fun s' => GaveSlots s s' (freed s R)
  | _, _, _, _, 0, _ => .error _
  | .nil, P, s, p, m + 1, h => by
    rw [show p = none from h.rest]
    exact .ok (.of_used fun _ => rfl)
  | .cons x xk xs, P, s, p, m + 1, h => by
    obtain ⟨rfl, hxP, -, -, hxt⟩ := h.head
    have hkids := Forest.kidsAt_append (k := xk) (g := xs) hxP
    rw [deleteSons, deleteSon, Fs.file_slot]
    by_cases hx : (s.filelist x).filename.get 0 ≠ 0x2E
    · have hnamed : Named (s.filelist x) := hx
      -- the node and, if it is a directory, what the recursion frees below it
      have hone : Returns (if (s.filelist x).attr = 0x10 then r s (.slot i) (.slot x)
          else deleteFile s (.slot i) (.slot x)) fun a =>
            Unlinked s a.2 (.slot i) (P.append (.cons x xk xs)) x ∧
            GaveSlots s a.2
              (x :: (if (s.filelist x).attr = 0x10 then freed s xk else [])) := by
        by_cases ha : (s.filelist x).attr = 0x10
        · have hdir := hrec h.linked h.nodup h.short h.self hxt
          rw [hkids] at hdir
          rw [if_pos ha, if_pos ha]
          exact hdir
        · rw [if_neg ha, if_neg ha]
          intro a hrun
          exact ⟨deleteFile_unlinks h.linked h.nodup h.short h.self hxt a hrun,
            deleteFile_frees h.linked h.nodup h.short h.self hxt a hrun⟩
      rw [if_pos hx, freed, if_pos hnamed]
      refine .bind (hone.map (Q := fun s1 => Unlinked s s1 (.slot i) (P.append (.cons x xk xs)) x ∧
        GaveSlots s s1 (x :: (if (s.filelist x).attr = 0x10 then freed s xk else [])))
        fun a ha => ha) ?_
      rintro s1 ⟨hg, hfree⟩
      rw [← freed_congr (h.keepBehind hg)]
      exact (deleteSons_frees hrec (h.drop hg)).mono fun s2 h2 => hfree.trans h2
    · have hdot : ¬ Named (s.filelist x) := hx
      rw [if_neg hx, freed, if_neg hdot]
      exact deleteSons_frees hrec h.pass

/-- **`delete_directory` with `rc`**, on a child of `fa`. -/
theorem deleteDirectory_frees : ∀ {n : Nat} {s : Fs} {fa : FileRef} {F : Forest (Fin 100)}
    {i : Fin 100}, Linked s.filelist fa (s.file fa).fstSon F → F.labels.Nodup →
    F.tops.length < sibFuel → (∀ x ∈ F.labels, .slot x ≠ fa) → i ∈ F.tops →
    Returns (deleteDirectory n s fa (.slot i) true) fun r =>
      Unlinked s r.2 fa F i ∧ GaveSlots s r.2 (i :: freed s (F.kidsAt i))
  | 0, _, _, _, _, _, _, _, _, _ => .error _
  | n + 1, s, fa, F, i, h, hnd, hlen, hfa, hi => by
    intro r hrun
    refine ⟨deleteDirectory_unlinks h hnd hlen hfa hi r hrun, ?_⟩
    revert r
    show Returns _ _
    unfold deleteDirectory
    rw [deleteFileFromFa_ok h hnd hlen hfa hi]
    have hlist := SonList.first h hnd hfa hi
    have hkeep : ∀ x ∈ (F.kidsAt i).labels, (relink s fa (predTop F i none)
        (s.filelist i).nextSib).filelist x = s.filelist x := fun x hx =>
      relink_below hnd hfa hi (List.mem_cons_of_mem _ hx)
    have hused := relink_used s fa (predTop F i none) (s.filelist i).nextSib
    generalize relink s fa (predTop F i none) (s.filelist i).nextSib = s1 at hlist hkeep hused
    show Returns (deleteSons _ (.slot i) sibFuel s1 (s1.filelist i).fstSon >>= _) _
    refine .bind (deleteSons_frees
      (fun h hnd hlen hfa hi => deleteDirectory_frees h hnd hlen hfa hi) hlist)
      fun s2 h2 => .bind (clearFile_disk s2 _) fun s3 hs3 => .ok ?_
    obtain ⟨d, rfl⟩ := hs3
    rw [freed_congr hkeep] at h2
    intro j
    have hall := ((GaveSlots.of_used hused).trans h2).trans (.markUnused { s2 with sdb := d } i) j
    rw [hall]
    simp [and_comm, or_comm]

end Deletion

/-! ## What a deletion forgets -/

/-- The node is below `dir`, by the links. -/
inductive Below (s : Fs) (dir : FileRef) : FileRef → Prop where
  | first {q : FileRef} : (s.file dir).fstSon = some q → Below s dir q
  | son {r q : FileRef} : Below s dir r → (s.file r).fstSon = some q → Below s dir q
  | sib {r q : FileRef} : Below s dir r → (s.file r).nextSib = some q → Below s dir q

/-- The recursion of `delete_directory` frees the node, and it does not stop at it. -/
def Swallowed (file : File) : Prop := Named file ∧ (file.attr = 0x10 ∨ file.fstSon = none)

section Forget

variable {s s' : Fs} {f F : Forest (Fin 100)} {fa : FileRef} {p : Option FileRef} {dir : FileRef}
  {i : Fin 100}

theorem MemTree.below_iff (h : MemTree s f) (hi : i ∈ f.labels) {q : FileRef} :
    Below s (.slot i) q ↔ ∃ x ∈ (f.kidsAt i).labels, q = .slot x := by
  have hkids := h.linked.kidsAt hi
  constructor
  · intro hq
    induction hq with
    | first hq =>
      obtain ⟨x, hx, hqx⟩ := hkids.first_tops hq
      exact ⟨x, Forest.tops_subset_labels hx, hqx⟩
    | son _ hq ih =>
      obtain ⟨x, hx, rfl⟩ := ih
      obtain ⟨y, hy, hqy⟩ := (hkids.kidsAt hx).first_tops hq
      exact ⟨y, Forest.kidsAt_labels_subset (Forest.tops_subset_labels hy), hqy⟩
    | sib _ hq ih =>
      obtain ⟨x, hx, rfl⟩ := ih
      exact hkids.nextSib_mem hx hq
  · rintro ⟨x, hx, rfl⟩
    exact hkids.closed (fun _ _ hr hq => .son hr hq) (fun _ _ hr hq => .sib hr hq)
      (fun _ hq => .first hq) hx

theorem Linked.nil_iff (h : Linked s.filelist fa p F) : F = .nil ↔ p = none := by
  cases F with
  | nil => exact iff_of_true rfl h
  | cons x kids sibs =>
    rw [h.1]
    simp

/-- The loop frees all nodes below exactly if it swallows each of them. -/
theorem Linked.freed_iff (h : Linked s.filelist fa p F) (hn : F.labels.Nodup) :
    (∀ x ∈ F.labels, x ∈ freed s F) ↔ ∀ x ∈ F.labels, Swallowed (s.filelist x) := by
  induction F generalizing fa p with
  | nil =>
    constructor <;>
      exact fun _ x hx => absurd hx List.not_mem_nil
  | cons y kids sibs ihk ihs =>
    obtain ⟨-, -, -, hk, hs⟩ := h
    obtain ⟨hyk, hys, hkn, hsn, hd⟩ := Forest.nodup_cons_iff.mp hn
    have hhead : ∀ x, x ∉ sibs.labels → (x ∈ freed s (.cons y kids sibs) ↔
        Named (s.filelist y) ∧ (x = y ∨ ((s.filelist y).attr = 0x10 ∧ x ∈ freed s kids))) := by
      intro x hx
      have hxs : x ∉ freed s sibs := fun hm => hx (freed_subset hm)
      by_cases hy : Named (s.filelist y) <;> by_cases ha : (s.filelist y).attr = 0x10 <;>
        simp [freed, hy, ha, hxs]
    have htail : ∀ x ∈ sibs.labels, (x ∈ freed s (.cons y kids sibs) ↔ x ∈ freed s sibs) := by
      intro x hx
      have hxy : x ≠ y := fun he => hys (he ▸ hx)
      have hxk : x ∉ freed s kids := fun hm => hd (freed_subset hm) hx
      by_cases hy : Named (s.filelist y) <;> by_cases ha : (s.filelist y).attr = 0x10 <;>
        simp [freed, hy, ha, hxy, hxk]
    have hmem : ∀ {x}, x ∈ (Forest.cons y kids sibs).labels ↔
        x = y ∨ x ∈ kids.labels ∨ x ∈ sibs.labels := by
      intro x
      rw [Forest.labels, List.mem_cons, List.mem_append]
    constructor
    · intro hall
      have hname := ((hhead y hys).mp (hall y (hmem.mpr (.inl rfl)))).1
      have hkids : ∀ x ∈ kids.labels, (s.filelist y).attr = 0x10 ∧ x ∈ freed s kids := by
        intro x hx
        have hxy : x ≠ y := fun he => hyk (he ▸ hx)
        have := (hhead x fun hm => hd hx hm).mp (hall x (hmem.mpr (.inr (.inl hx))))
        exact this.2.resolve_left hxy
      intro x hx
      rcases hmem.mp hx with rfl | hx | hx
      · refine ⟨hname, ?_⟩
        rw [← hk.nil_iff]
        cases kids with
        | nil => exact .inr rfl
        | cons z _ _ => exact .inl (hkids z (List.mem_cons_self ..)).1
      · exact (ihk hk hkn).mp (fun z hz => (hkids z hz).2) x hx
      · exact (ihs hs hsn).mp (fun z hz => (htail z hz).mp (hall z (hmem.mpr (.inr (.inr hz))))) x hx
    · intro hall x hx
      obtain ⟨hname, hdir⟩ := hall y (hmem.mpr (.inl rfl))
      rcases hmem.mp hx with rfl | hx | hx
      · exact (hhead x hys).mpr ⟨hname, .inl rfl⟩
      · refine (hhead x fun hm => hd hx hm).mpr ⟨hname, .inr ⟨?_, ?_⟩⟩
        · refine hdir.resolve_right fun hnone => ?_
          rw [hk.nil_iff.mpr hnone] at hx
          exact List.not_mem_nil hx
        · exact (ihk hk hkn).mpr (fun z hz => hall z (hmem.mpr (.inr (.inl hz)))) x hx
      · exact (htail x hx).mpr
          ((ihs hs hsn).mpr (fun z hz => hall z (hmem.mpr (.inr (.inr hz)))) x hx)

/-- **After a deletion** that freed the node and the slots `l` below it, the slots are accounted
for exactly if nothing below the node is missing in `l`. -/
theorem GaveSlots.accounted_iff {l : List (Fin 100)} (hg : GaveSlots s s' (i :: l))
    (h : Unlinked s s' dir (childrenOf f dir) i) (ht : MemTree s f)
    (hroot : s.rootfile.nextSib = none) (ha : SlotsAccounted s) (hdir : HasRef f dir)
    (hi : i ∈ (childrenOf f dir).tops) (hl : ∀ x ∈ l, x ∈ (f.kidsAt i).labels) :
    SlotsAccounted s' ↔ ∀ x ∈ (f.kidsAt i).labels, x ∈ l := by
  obtain ⟨hroot', -⟩ := (TreeStep.unlinked hdir hi h).distinct ht hroot
  have hilab : i ∈ f.labels := childrenOf_subset (Forest.tops_subset_labels hi)
  have hkids : (childrenOf f dir).kidsAt i = f.kidsAt i :=
    ht.kidsAt_child (Forest.tops_subset_labels hi)
  have hused : ∀ j, (s'.filelist j).used = true ↔ j ∈ f.labels ∧ j ∉ i :: l := by
    intro j
    rw [show (s'.filelist j).used = true ↔ _ from hg j, InUse, ha j, ht.reachable_iff hroot]
    exact Iff.rfl
  have hreach : ∀ j, Reachable s' (.slot j) ↔ j ∈ f.labels ∧ j ∉ i :: (f.kidsAt i).labels := by
    intro j
    rw [(h.memTree ht hdir hi).reachable_iff hroot', HasRef, Unlinked.mem_labels ht hdir hi, hkids]
  constructor
  · intro hacc x hx
    by_contra hxl
    have hxi : x ≠ i := fun he => Forest.not_mem_kidsAt_self ht.nodup hilab (he ▸ hx)
    have hu := (hused x).mpr ⟨Forest.kidsAt_labels_subset hx, by simp [hxi, hxl]⟩
    exact ((hreach x).mp ((hacc x).mp hu)).2 (List.mem_cons_of_mem _ hx)
  · intro hall j
    have hsame : j ∈ i :: l ↔ j ∈ i :: (f.kidsAt i).labels := by
      rw [List.mem_cons, List.mem_cons]
      exact or_congr_right ⟨hl j, hall j⟩
    rw [hused, hreach, hsame]

/-- Creations take slots for the new nodes only. -/
theorem Made.accounted {filename : Name} {kids : Forest (Fin 100)}
    (h : Made s s' dir filename i kids) (ht : MemTree s f) (hroot : s.rootfile.nextSib = none)
    (ha : SlotsAccounted s) (hdir : HasRef f dir) : SlotsAccounted s' := by
  obtain ⟨hroot', -⟩ := (TreeStep.made hdir h).distinct ht hroot
  intro j
  rw [show (s'.filelist j).used = true ↔ _ from h.took j, InUse, ha j, ht.reachable_iff hroot,
    (h.memTree ht hdir).reachable_iff hroot', HasRef, HasRef, mem_replaceChildren ht hdir,
    Forest.labels, List.mem_cons, List.mem_cons, List.mem_append]
  by_cases hj : j ∈ (childrenOf f dir).labels
  · exact iff_of_true (.inl (childrenOf_subset hj)) (.inl (.inr (.inr hj)))
  · simp only [hj, or_false, not_false_eq_true, and_true]
    exact or_comm

end Forget

/-! ## Runs -/

namespace FsOp

/-- Directories are deleted with `rc`. -/
def Recursive : FsOp → Prop
  | deleteDirectory _ _ rc => rc = true
  | _ => True

/-- Nothing below the deleted node is forgotten: a file has nothing below it, and below a
directory every node has a name without a leading dot and is a directory, if there is something
below it in turn. -/
def FreesBelow (s : Fs) : FsOp → Prop
  | deleteFile _ file => (s.filelist file).fstSon = none
  | deleteDirectory _ dir _ => ∀ q, Below s (.slot dir) q → Swallowed (s.file q)
  | _ => True

end FsOp

/-- Every call of the run succeeds. -/
def SuccessfulRun : List FsOp → Fs → Prop
  | [], _ => True
  | op :: ops, s => op.InTree s ∧ op.Recursive ∧
    ∃ s', op.run s = .ok (true, s') ∧ SuccessfulRun ops s'

/-- Every call of the run frees what is below the node that it deletes. -/
def FreesBelowRun : List FsOp → Fs → Prop
  | [], _ => True
  | op :: ops, s => op.FreesBelow s ∧ ∀ r, op.run s = .ok r → FreesBelowRun ops r.2

section Run

variable {s s' : Fs} {f : Forest (Fin 100)} {dir : FileRef} {i : Fin 100}

theorem deleteFile_accounted (ht : MemTree s f) (hroot : s.rootfile.nextSib = none)
    (ha : SlotsAccounted s) (hdir : HasRef f dir)
    (hrun : deleteFile s dir (.slot i) = .ok (true, s')) :
    SlotsAccounted s' ↔ (s.filelist i).fstSon = none := by
  by_cases hi : i ∈ (childrenOf f dir).tops
  · have hilab : i ∈ f.labels := childrenOf_subset (Forest.tops_subset_labels hi)
    have hu := deleteFile_unlinks (ht.children hdir) (ht.children_nodup dir) (ht.tops_lt dir)
      (ht.child_ne hdir) hi _ hrun
    have hg := deleteFile_frees (ht.children hdir) (ht.children_nodup dir) (ht.tops_lt dir)
      (ht.child_ne hdir) hi _ hrun
    rw [hg.accounted_iff hu ht hroot ha hdir hi fun _ hx => absurd hx List.not_mem_nil,
      ← (ht.linked.kidsAt hilab).nil_iff]
    constructor
    · intro hnone
      cases hk : f.kidsAt i with
      | nil => rfl
      | cons x kids sibs =>
        rw [hk] at hnone
        exact absurd (hnone x (List.mem_cons_self ..)) List.not_mem_nil
    · intro hnil x hx
      rw [hnil] at hx
      exact hx
  · obtain ⟨msg, habs, -⟩ := deleteFile_absent ht hdir hi
    rw [habs] at hrun
    cases hrun

theorem deleteDirectory_accounted (ht : MemTree s f) (hroot : s.rootfile.nextSib = none)
    (ha : SlotsAccounted s) (hdir : HasRef f dir)
    (hrun : deleteDirectory sibFuel s dir (.slot i) true = .ok (true, s')) :
    SlotsAccounted s' ↔ ∀ q, Below s (.slot i) q → Swallowed (s.file q) := by
  by_cases hi : i ∈ (childrenOf f dir).tops
  · have hilab : i ∈ f.labels := childrenOf_subset (Forest.tops_subset_labels hi)
    obtain ⟨hu, hg⟩ := deleteDirectory_frees (ht.children hdir) (ht.children_nodup dir)
      (ht.tops_lt dir) (ht.child_ne hdir) hi _ hrun
    rw [ht.kidsAt_child (Forest.tops_subset_labels hi)] at hg
    rw [hg.accounted_iff hu ht hroot ha hdir hi fun _ hx => freed_subset hx,
      (ht.linked.kidsAt hilab).freed_iff (Forest.kidsAt_nodup ht.nodup)]
    constructor
    · intro hall q hq
      obtain ⟨x, hx, rfl⟩ := (ht.below_iff hilab).mp hq
      exact hall x hx
    · intro hall x hx
      exact hall (.slot x) ((ht.below_iff hilab).mpr ⟨x, hx, rfl⟩)
  · obtain ⟨msg, -, habs⟩ := deleteFile_absent ht hdir hi
    rw [habs] at hrun
    cases hrun

/-- **One successful call** keeps the slots accounted for exactly if it frees what is below the
node that it deletes. -/
theorem FsOp.accounted_iff {op : FsOp} (h : TreeShaped s) (ha : SlotsAccounted s)
    (hop : op.InTree s) (hrc : op.Recursive) (hrun : op.run s = .ok (true, s')) :
    SlotsAccounted s' ↔ op.FreesBelow s := by
  obtain ⟨hroot, f, ht⟩ := h
  have hin : ∀ dir, Reachable s dir → HasRef f dir := fun dir hdir =>
    (ht.reachable_iff hroot).mp hdir
  have hcreate : ∀ {dir filename}, Reachable s dir → Makes s dir filename (true, s') →
      SlotsAccounted s' := by
    rintro dir filename hdir (⟨hfalse, -⟩ | ⟨-, i, kids, hmade⟩)
    · exact absurd hfalse.symm Bool.false_ne_true
    · exact hmade.accounted ht hroot ha (hin dir hdir)
  cases op with
  | createEmptyFile dir filename attr wrtTime wrtDate =>
    exact iff_of_true (hcreate hop (createEmptyFile_makes s (ht.inUse (hin dir hop)) filename attr
      wrtTime wrtDate _ hrun)) trivial
  | createEmptyDirectory dir filename wrtTime wrtDate =>
    exact iff_of_true (hcreate hop (createEmptyDirectory_makes s (ht.inUse (hin dir hop)) filename
      wrtTime wrtDate _ hrun)) trivial
  | deleteFile dir file => exact deleteFile_accounted ht hroot ha (hin dir hop) hrun
  | deleteDirectory fa dir rc =>
    cases hrc
    exact deleteDirectory_accounted ht hroot ha (hin fa hop) hrun
  | writeFile file type content => exact hop.elim
  | writeFileFromSda file type filesize => exact hop.elim
  | appendFile file1 file2 => exact hop.elim

end Run

/-- **File-slot accounting.** From a state whose slots in use are the nodes of the tree, a run of
successful calls keeps them so in every state it passes through exactly if each deletion frees
what is below the node that it deletes. -/
theorem slotsAccounted_iff {ops : List FsOp} {s : Fs} (h : TreeShaped s) (ha : SlotsAccounted s)
    (hops : SuccessfulRun ops s) :
    (∀ pre s', pre <+: ops → runOps pre s = .ok s' → SlotsAccounted s') ↔ FreesBelowRun ops s := by
  induction ops generalizing s with
  | nil =>
    refine iff_of_true (fun pre s' hpre hrun => ?_) trivial
    rw [List.prefix_nil.mp hpre] at hrun
    cases hrun
    exact ha
  | cons op ops ih =>
    obtain ⟨hop, hrc, s1, hrun1, hops⟩ := hops
    have hstep := FsOp.accounted_iff h ha hop hrc hrun1
    obtain ⟨hroot, f, ht⟩ := h
    obtain ⟨hroot1, f1, ht1, -⟩ := (op.treeStep ht hroot hop _ hrun1).distinct ht hroot
    have ht1' : TreeShaped s1 := ⟨hroot1, f1, ht1⟩
    have hcons : ∀ pre, runOps (op :: pre) s = runOps pre s1 := fun pre => by
      rw [runOps, hrun1]
      rfl
    constructor
    · intro hall
      have ha1 : SlotsAccounted s1 := hall [op] s1 ⟨ops, rfl⟩ (by rw [hcons]; rfl)
      refine ⟨hstep.mp ha1, fun r hr => ?_⟩
      rw [hrun1] at hr
      cases hr
      refine (ih ht1' ha1 hops).mp fun pre s' hpre hrun => ?_
      exact hall (op :: pre) s' (List.cons_prefix_cons.mpr ⟨rfl, hpre⟩) (by rw [hcons, hrun])
    · rintro ⟨hfree, hrest⟩ pre s' hpre hrun
      have ha1 := hstep.mpr hfree
      cases pre with
      | nil =>
        cases hrun
        exact ha
      | cons op' pre =>
        obtain ⟨rfl, htail⟩ := List.cons_prefix_cons.mp hpre
        rw [hcons] at hrun
        exact (ih ht1' ha1 hops).mpr (hrest _ hrun1) pre s' htail hrun

theorem emptyFs_accounted : SlotsAccounted emptyFs := by
  intro i
  rw [emptyFs_memTree.reachable_iff rfl]
  exact iff_of_false Bool.false_ne_true List.not_mem_nil

/-- A file is created and deleted again. -/
def touchRm : List FsOp :=
  [.createEmptyFile .rootfile sampleName 0x20 0 0, .deleteFile .rootfile 0]

theorem slotsAccounted_iff_file : FreesBelowRun touchRm emptyFs ∧
    ∃ s', runOps touchRm emptyFs = .ok s' ∧ SlotsAccounted s' := by
  have hrun : returnsWith (createEmptyFile emptyFs .rootfile sampleName 0x20 0 0) (fun r =>
      r.1 && decide ((r.2.filelist 0).fstSon = none) &&
        returnsWith (deleteFile r.2 .rootfile (.slot 0)) Prod.fst) = true := by decide +kernel
  obtain ⟨⟨ok1, s1⟩, hs1, htest⟩ := returnsWith_iff.mp hrun
  simp only [Bool.and_eq_true, decide_eq_true_eq] at htest
  obtain ⟨⟨rfl, hson⟩, hrun2⟩ := htest
  obtain ⟨⟨ok2, s2⟩, hs2, rfl⟩ := returnsWith_iff.mp hrun2
  have hops : SuccessfulRun touchRm emptyFs :=
    ⟨.root, trivial, s1, hs1, .root, trivial, s2, hs2, trivial⟩
  have hfree : FreesBelowRun touchRm emptyFs := by
    refine ⟨trivial, fun r hr => ?_⟩
    obtain rfl := Except.ok.inj (hs1.symm.trans hr)
    exact ⟨hson, fun _ _ => trivial⟩
  have hend : runOps touchRm emptyFs = .ok s2 := by
    rw [touchRm, runOps, FsOp.run, hs1]
    show runOps [_] s1 = _
    rw [runOps, FsOp.run, hs2]
    rfl
  have hall := (slotsAccounted_iff emptyFs_treeShaped emptyFs_accounted hops).mpr hfree
  exact ⟨hfree, s2, hend, hall touchRm s2 (List.prefix_refl _) hend⟩

/-- A directory is created and deleted with all it has. -/
def mkdirRm : List FsOp :=
  [.createEmptyDirectory .rootfile sampleName 0 0, .deleteDirectory .rootfile 0 true]

/-- **Two slots are lost** with a directory: its nodes `.` and `..` stay in use, and nothing
leads to them. -/
theorem slots_leaked :
    SlotsAccounted emptyFs ∧ SuccessfulRun mkdirRm emptyFs ∧
      ∃ s', runOps mkdirRm emptyFs = .ok s' ∧ (s'.filelist 1).used = true ∧
        (s'.filelist 2).used = true ∧ (∀ r, Reachable s' r → r = .rootfile) ∧
        ¬ SlotsAccounted s' := by
  have hrun : returnsWith (createEmptyDirectory emptyFs .rootfile sampleName 0 0) (fun r =>
      r.1 && returnsWith (deleteDirectory sibFuel r.2 .rootfile (.slot 0) true) fun r' =>
        r'.1 && decide (r'.2.rootfile.fstSon = none) && decide (r'.2.rootfile.nextSib = none) &&
          (r'.2.filelist 1).used && (r'.2.filelist 2).used) = true := by decide +kernel
  obtain ⟨⟨ok1, s1⟩, hs1, htest⟩ := returnsWith_iff.mp hrun
  obtain ⟨rfl, hrun2⟩ := (Bool.and_eq_true _ _).mp htest
  obtain ⟨⟨ok2, s2⟩, hs2, htest2⟩ := returnsWith_iff.mp hrun2
  simp only [Bool.and_eq_true, decide_eq_true_eq] at htest2
  obtain ⟨⟨⟨⟨rfl, hson⟩, hsib⟩, hused1⟩, hused2⟩ := htest2
  have hreach : ∀ r, Reachable s2 r → r = .rootfile := by
    intro r hr
    induction hr with
    | root => rfl
    | son _ hq ih =>
      subst ih
      cases hson.symm.trans hq
    | sib _ hq ih =>
      subst ih
      cases hsib.symm.trans hq
  refine ⟨emptyFs_accounted, ⟨.root, trivial, s1, hs1, .root, rfl, s2, hs2, trivial⟩, s2, ?_, hused1,
    hused2, hreach, fun hacc => ?_⟩
  · show runOps _ _ = _
    rw [mkdirRm, runOps, FsOp.run, hs1]
    show runOps [_] s1 = _
    rw [runOps, FsOp.run, hs2]
    rfl
  · cases hreach _ ((hacc 1).mp hused1)

end GwOS
