import GwOS.Filesystem.Remount
import GwOS.Filesystem.Delete

/-!
# Agreement of disk and memory

`InSync s f`: the tree in memory is, up to the order of siblings, the tree that a
remount builds from the disk.

- Creation keeps the agreement (`create_inSync`): the new entry shows up as one
  more child of its directory, every other directory reads as before.
- Deletion never does (`delete_not_inSync`): it releases the chain and unlinks the
  node, but the directory entry stays on the disk. The proof compares the two
  trees outside the released clusters, where the disk has not changed, and counts
  nodes.
-/

namespace GwOS

/-- A remount builds the tree that is in memory, up to the order of siblings. -/
def InSync (s : Fs) (f : Forest (Fin 100)) : Prop :=
  ∃ s0 f0, filesystemInit s = .ok s0 ∧ MemTree s0 f0 ∧
    Forest.SibEquiv (viewTree s0 f0) (viewTree s f)

/-- In terms of what the disk describes. -/
theorem InSync.readsBack {s : Fs} {f : Forest (Fin 100)} (h : InSync s f) :
    ∃ t, ReadsBack s.sdb t ∧ Forest.SibEquiv t (viewTree s f) := by
  obtain ⟨s0, f0, hinit, hm, heq⟩ := h
  obtain ⟨f1, hm1, hback⟩ := filesystemInit_reads hinit
  rw [hm.unique hm1] at heq
  exact ⟨_, hback, heq⟩

theorem InSync.of_readsBack {s : Fs} {f : Forest (Fin 100)} {t : Forest Entry} (hm : MemTree s f)
    (h : ReadsBack s.sdb t) (heq : Forest.SibEquiv t (viewTree s f)) : InSync s f := by
  have hsize : t.size ≤ 100 := by
    rw [← Forest.labels_length, heq.labels_perm.length_eq, viewTree, Forest.labels_map,
      List.length_map]
    simpa using hm.nodup.length_le_card
  obtain ⟨s0, f0, hinit, hm0, hview⟩ := filesystemInit_ok h hsize
  exact ⟨s0, f0, hinit, hm0, hview ▸ heq⟩

/-! ## The subdirectories of a mounted volume -/

/-- The root, or a node that `build_tree` descends into. -/
def DirRef (s : Fs) (f : Forest (Fin 100)) : FileRef → Prop
  | .rootfile => True
  | .slot j => j ∈ f.labels ∧ (s.filelist j).entry.IsSubdir

section Subdirs

variable {s s' : Fs} {f : Forest (Fin 100)} {chain : Fin 100 → List Nat} {t : Forest Entry}

theorem live_of_isSubdir {j : Fin 100} (hj : j ∈ f.labels) (h : (s.filelist j).entry.IsSubdir) :
    Live s f j :=
  ⟨hj, Named.not_isDot h.2⟩

theorem DirRef.liveRef {r : FileRef} (h : DirRef s f r) : LiveRef s f r := by
  cases r with
  | rootfile => trivial
  | slot j => exact live_of_isSubdir h.1 h.2

/-- Every entry on the disk is the entry of a node. -/
theorem mem_of_equiv (heq : Forest.SibEquiv t (viewTree s f)) {e : Entry} (he : e ∈ t.labels) :
    ∃ j ∈ f.labels, (s.filelist j).entry = e := by
  have := heq.labels_perm.mem_iff.mp he
  rwa [viewTree, Forest.labels_map, List.mem_map] at this

/-- Live nodes with the same first cluster are the same. -/
theorem Mounted.eq_of_firstClus (h : Mounted s f chain) {i j : Fin 100} (hi : Live s f i)
    (hj : Live s f j) {k : Nat} (hk : firstClus s i = k) (hkj : k ∈ chain j) : i = j := by
  by_contra hne
  have hK := h.volume.chains i hi
  obtain ⟨l, Q, hlQ⟩ := List.exists_cons_of_ne_nil hK.nonempty
  rw [hlQ] at hK
  have hl : firstClus s i = l := hK.visits.1
  refine h.volume.disjoint i j hi hj hne (a := k) ?_ hkj
  rw [hlQ, ← hk, hl]
  exact List.mem_cons_self ..

theorem Mounted.firstClus_mem (h : Mounted s f chain) {i : Fin 100} (hi : Live s f i) :
    firstClus s i ∈ chain i := by
  have hK := h.volume.chains i hi
  obtain ⟨l, Q, hlQ⟩ := List.exists_cons_of_ne_nil hK.nonempty
  rw [hlQ] at hK ⊢
  rw [show firstClus s i = l from hK.visits.1]
  exact List.mem_cons_self ..

end Subdirs

/-! ## A new entry -/

theorem dirEntries_cons (d : Disk) (x : Nat) (secs : List Nat) :
    dirEntries d (x :: secs) =
      (usedOffsets (d x)).map (entryAt (d x)) ++ dirEntries d secs := by
  simp [dirEntries, usedSlots]

theorem dirEntries_congr {d d' : Disk} : ∀ {secs : List Nat}, (∀ x ∈ secs, d' x = d x) →
    dirEntries d' secs = dirEntries d secs
  | [], _ => rfl
  | x :: secs, h => by
    rw [dirEntries_cons, dirEntries_cons, h x (List.mem_cons_self ..),
      dirEntries_congr fun y hy => h y (List.mem_cons_of_mem _ hy)]

/-- Filling the free slot `off` adds one entry to those of the sector. -/
theorem usedOffsets_put {b : Sector} {off : Nat} {file : File} (hoff : off ∈ dirEntryOffsets)
    (hfree : slotFree b off = true) (h0 : file.filename.get 0 ≠ 0x00)
    (hE5 : file.filename.get 0 ≠ 0xE5) :
    ∃ l₁ l₂, (usedOffsets b).map (entryAt b) = l₁ ++ l₂ ∧
      (usedOffsets (putDirEntry b off file)).map (entryAt (putDirEntry b off file)) =
        l₁ ++ file.entry :: l₂ := by
  obtain ⟨P, Q, hPQ⟩ := List.append_of_mem hoff
  have hnd : dirEntryOffsets.Nodup := by decide
  rw [hPQ] at hnd
  obtain ⟨i, hi, hoffi⟩ := mem_dirEntryOffsets.mp hoff
  have hfit : off + 32 ≤ 512 := by omega
  -- the other entries are not touched
  have hne : ∀ o ∈ P ++ Q, o ∈ dirEntryOffsets ∧ o ≠ off := by
    intro o ho
    refine ⟨?_, ?_⟩
    · rw [hPQ]
      rcases List.mem_append.mp ho with ho | ho
      · exact List.mem_append_left _ ho
      · exact List.mem_append_right _ (List.mem_cons_of_mem _ ho)
    · rintro rfl
      exact (List.nodup_cons.mp (List.perm_middle.nodup_iff.mp hnd)).1 ho
  have hsame : ∀ o ∈ P ++ Q, ∀ k, o ≤ k → k < o + 32 →
      (putDirEntry b off file).get k = b.get k := by
    intro o ho k hk hk'
    obtain ⟨hmem, hoo⟩ := hne o ho
    obtain ⟨j, hj, hoj⟩ := mem_dirEntryOffsets.mp hmem
    refine get_putDirEntry_ne b file ?_
    omega
  have hused : ∀ o ∈ P ++ Q, slotFree (putDirEntry b off file) o = slotFree b o := by
    intro o ho
    rw [slotFree, slotFree, hsame o ho o (le_refl o) (by omega)]
  have hself : slotFree (putDirEntry b off file) off = false := by
    have := get_putDirEntry_name b file hfit (by decide : 0 < 11)
    rw [Nat.add_zero] at this
    rw [slotFree, this]
    simp [h0, hE5]
  have hpart : ∀ l : List Nat, (∀ o ∈ l, o ∈ P ++ Q) →
      (l.filter fun o => !slotFree (putDirEntry b off file) o).map
        (entryAt (putDirEntry b off file)) =
      (l.filter fun o => !slotFree b o).map (entryAt b) := by
    intro l hl
    rw [List.filter_congr fun o ho => by rw [hused o (hl o ho)]]
    refine List.map_congr_left fun o ho => entryAt_congr ?_
    exact hsame o (hl o (List.mem_of_mem_filter ho))
  refine ⟨(P.filter fun o => !slotFree b o).map (entryAt b),
    (Q.filter fun o => !slotFree b o).map (entryAt b), ?_, ?_⟩
  · rw [usedOffsets, hPQ, List.filter_append, List.map_append,
      List.filter_cons_of_neg (by simp [hfree])]
  · rw [usedOffsets, hPQ, List.filter_append, List.map_append,
      List.filter_cons_of_pos (by simp [hself]), List.map_cons,
      hpart P fun o ho => List.mem_append_left _ ho,
      hpart Q fun o ho => List.mem_append_right _ ho, entryAt_putDirEntry b file hfit]

/-- The same for a directory: one sector gets the entry, the others stay. -/
theorem dirEntries_put {d e : Disk} {x off : Nat} {file : File} {l : List Nat}
    (hnd : l.Nodup) (hx : x ∈ l) (hother : ∀ y ∈ l, y ≠ x → e y = d y)
    (hput : e x = putDirEntry (d x) off file) (hoff : off ∈ dirEntryOffsets)
    (hfree : slotFree (d x) off = true) (h0 : file.filename.get 0 ≠ 0x00)
    (hE5 : file.filename.get 0 ≠ 0xE5) :
    ∃ l₁ l₂, dirEntries d l = l₁ ++ l₂ ∧ dirEntries e l = l₁ ++ file.entry :: l₂ := by
  obtain ⟨l₁, l₂, h₁, h₂⟩ := usedOffsets_put hoff hfree h0 hE5
  obtain ⟨A, B, hAB⟩ := List.append_of_mem hx
  subst hAB
  have hnot := (List.nodup_cons.mp (List.perm_middle.nodup_iff.mp hnd)).1
  have happ : ∀ (d : Disk) (A B : List Nat),
      dirEntries d (A ++ B) = dirEntries d A ++ dirEntries d B := by
    intro d A B
    simp [dirEntries, usedSlots]
  have hA : dirEntries e A = dirEntries d A := dirEntries_congr fun y hy =>
    hother y (List.mem_append_left _ hy) fun he => hnot (List.mem_append_left _ (he ▸ hy))
  have hB : dirEntries e B = dirEntries d B := dirEntries_congr fun y hy =>
    hother y (List.mem_append_right _ (List.mem_cons_of_mem _ hy))
      fun he => hnot (List.mem_append_right _ (he ▸ hy))
  refine ⟨dirEntries d A ++ l₁, l₂ ++ dirEntries d B, ?_, ?_⟩
  · rw [happ, dirEntries_cons, h₁]
    simp
  · rw [happ, dirEntries_cons, hput, h₂, hA, hB]
    simp

theorem decodes_insertTop {d : Disk} {e : Entry} {kids : Forest Entry}
    (hnew : Decodes d (.cons e kids .nil)) : ∀ {n : Nat} {t : Forest Entry}, Decodes d t →
    Decodes d (Forest.insertTop e kids n t)
  | 0, .nil, _ => hnew
  | 0, .cons _ _ _, h => ⟨hnew.1, hnew.2.1, h⟩
  | _ + 1, .nil, _ => hnew
  | _ + 1, .cons _ _ _, h => ⟨h.1, h.2.1, decodes_insertTop hnew h.2.2⟩

/-- The directory `e` reads the same on both disks. -/
def SameDir (d d' : Disk) (e : Entry) : Prop :=
  ∃ secs, DirSecs d e.fstClus.toNat secs ∧ DirSecs d' e.fstClus.toNat secs ∧
    dirEntries d' secs = dirEntries d secs

/-- The directory `e` has got the entry `new` at position `n`. -/
def GotEntry (d d' : Disk) (n : Nat) (new e : Entry) : Prop :=
  ∃ secs l₁ l₂, DirSecs d e.fstClus.toNat secs ∧ DirSecs d' e.fstClus.toNat secs ∧
    dirEntries d secs = l₁ ++ l₂ ∧ dirEntries d' secs = l₁ ++ new :: l₂ ∧ l₁.length = n

/-- Directories in `P` have got an entry, the others are unchanged: what the new disk
describes. -/
theorem decodes_graft {d d' : Disk} {P : Entry → Prop} [DecidablePred P] {n : Nat} {new : Entry}
    {kids : Forest Entry} (hP : ∀ e, P e → e.IsSubdir)
    (hnew : Decodes d' (.cons new kids .nil)) : ∀ {t : Forest Entry}, Decodes d t →
    (∀ e ∈ t.labels, e.IsSubdir → if P e then GotEntry d d' n new e else SameDir d d' e) →
    Decodes d' (t.graft P (Forest.insertTop new kids n))
  | .nil, _, _ => trivial
  | .cons e ks sibs, h, hdir => by
    obtain ⟨hk, hkd, hsd⟩ := h
    have hks := decodes_graft hP hnew hkd fun e he =>
      hdir e (List.mem_cons_of_mem _ (List.mem_append_left _ he))
    have hss := decodes_graft hP hnew hsd fun e he =>
      hdir e (List.mem_cons_of_mem _ (List.mem_append_right _ he))
    have hself := hdir e (List.mem_cons_self ..)
    by_cases he : e.IsSubdir
    · rw [if_pos he] at hk
      obtain ⟨secs, hsecs, htops⟩ := hk
      by_cases hPe : P e
      · have hgot := hself he
        rw [if_pos hPe] at hgot
        obtain ⟨secs', l₁, l₂, hs, hs', h₁, h₂, rfl⟩ := hgot
        rw [hs.unique hsecs] at hs' h₁ h₂
        rw [Forest.graft, if_pos hPe]
        refine ⟨?_, decodes_insertTop hnew hks, hss⟩
        rw [if_pos he]
        refine ⟨secs, hs', ?_⟩
        rw [h₂]
        exact Forest.tops_insertTop _ _ (by rw [Forest.tops_graft, htops, h₁])
      · have hsame := hself he
        rw [if_neg hPe] at hsame
        obtain ⟨secs', hs, hs', heq⟩ := hsame
        rw [hs.unique hsecs] at hs' heq
        rw [Forest.graft, if_neg hPe]
        refine ⟨?_, hks, hss⟩
        rw [if_pos he]
        exact ⟨secs, hs', by rw [Forest.tops_graft, htops, heq]⟩
    · rw [if_neg he] at hk
      subst hk
      rw [Forest.graft, if_neg fun hPe => he (hP e hPe)]
      refine ⟨?_, trivial, hss⟩
      rw [if_neg he]
      rfl

/-! ## Creation -/

section Create

variable {s s' : Fs} {f kids : Forest (Fin 100)} {chain : Fin 100 → List Nat} {dir : FileRef}
  {i : Fin 100} {node : File} {c x off : Nat} {b : Sector}

/-- The sectors of another directory are as before. -/
theorem Created.sectors_ne (hcr : Created s s' chain dir i node kids c x off b)
    (h : Mounted s f chain) (hdir : LiveRef s f dir) {r : FileRef} (hr : LiveRef s f r)
    (hne : r ≠ dir) {y : Nat} (hy : y ∈ dirSectors chain r) : s'.sdb y = s.sdb y := by
  have hrange := (dirSectors_range h hr hy).1
  refine hcr.touches.data y (.inr hrange) ?_
  rintro (rfl | hyc)
  · exact dirSectors_disjoint h hr hdir hne hy hcr.sector
  · exact dirSectors_ne_free h hr hy hcr.free hyc

/-- The nodes of the tree keep their entries. -/
theorem Created.entries (hcr : Created s s' chain dir i node kids c x off b)
    (h : Mounted s f chain) {j : Fin 100} (hj : j ∈ f.labels) :
    (s'.filelist j).entry = (s.filelist j).entry := by
  by_cases hjd : FileRef.slot j = dir
  · subst hjd
    have hd := hcr.dirNode
    rw [Fs.file_slot, Fs.file_slot] at hd
    rw [hd]
    rfl
  · have hk := hcr.keep h (q := .slot j) hj hjd
    rw [Fs.file_slot, Fs.file_slot] at hk
    rw [hk]

theorem Created.newEntry (hcr : Created s s' chain dir i node kids c x off b) :
    (s'.filelist i).entry = node.entry := by
  obtain ⟨son, sib, hnode⟩ := hcr.newNode
  rw [hnode]
  rfl

/-- Chains are as before. -/
theorem Created.fileChain (hcr : Created s s' chain dir i node kids c x off b)
    (h : Mounted s f chain) {j : Fin 100} (hj : Live s f j) :
    FileChain s'.sdb (firstClus s j) (chain j) := by
  have hK := h.volume.chains j hj
  refine hK.congr fun k hk => hcr.touches.fat k (hK.lt_fatEntries hk) ?_
  rintro rfl
  exact hK.not_free hk hcr.free

/-- The directory reads with one more entry. -/
theorem Created.reads_dir (hcr : Created s s' chain dir i node kids c x off b)
    (h : Mounted s f chain) (hdir : LiveRef s f dir) (h0 : node.filename.get 0 ≠ 0x00)
    (hE5 : node.filename.get 0 ≠ 0xE5) :
    ∃ l₁ l₂, dirEntries s.sdb (dirSectors chain dir) = l₁ ++ l₂ ∧
      dirEntries s'.sdb (dirSectors chain dir) = l₁ ++ node.entry :: l₂ := by
  refine dirEntries_put (dirSectors_nodup h hdir) hcr.sector (fun y hy hyx => ?_) hcr.entry
    (List.mem_of_find?_eq_some hcr.slot) (List.find?_some hcr.slot) h0 hE5
  refine hcr.touches.data y (.inr (dirSectors_range h hdir hy).1) ?_
  rintro (hx | hc)
  · exact hyx hx
  · exact dirSectors_ne_free h hdir hy hcr.free hc

/-- A subdirectory other than `dir` reads as before. -/
theorem Created.sameDir (hcr : Created s s' chain dir i node kids c x off b)
    (h : Mounted s f chain) (hdir : LiveRef s f dir) {j : Fin 100} (hj : Live s f j)
    (hne : FileRef.slot j ≠ dir) : SameDir s.sdb s'.sdb (s.filelist j).entry :=
  ⟨_, DirSecs.chain (h.volume.chains j hj), DirSecs.chain (hcr.fileChain h hj),
    dirEntries_congr fun _ hy => hcr.sectors_ne h hdir (r := .slot j) hj hne hy⟩

/-- The entry of the directory `j`, by its first cluster. -/
def AtDir (s : Fs) (j : Fin 100) (e : Entry) : Prop :=
  e.IsSubdir ∧ e.fstClus = (s.filelist j).fstClus

instance (s : Fs) (j : Fin 100) : DecidablePred (AtDir s j) := fun e => by
  unfold AtDir
  infer_instance

theorem Mounted.atDir_iff (h : Mounted s f chain) {j₀ : Fin 100} (hdir : DirRef s f (.slot j₀))
    {j : Fin 100} (hj : j ∈ f.labels) : AtDir s j₀ (s.filelist j).entry ↔ j = j₀ := by
  constructor
  · rintro ⟨hsub, hc⟩
    have hfc : firstClus s j = firstClus s j₀ := congrArg UInt16.toNat hc
    refine h.eq_of_firstClus (live_of_isSubdir hj hsub) hdir.liveRef rfl ?_
    rw [hfc]
    exact h.firstClus_mem hdir.liveRef
  · rintro rfl
    exact ⟨hdir.2, rfl⟩

/-- The tree `t` with a new entry in `dir`, at position `n`. -/
def addEntry (s : Fs) (dir : FileRef) (new : Entry) (kids : Forest Entry) (n : Nat)
    (t : Forest Entry) : Forest Entry :=
  match dir with
  | .rootfile => Forest.insertTop new kids n t
  | .slot j => t.graft (AtDir s j) (Forest.insertTop new kids n)

/-- The new disk describes the old tree with the new entry. -/
theorem Created.readsBack (hcr : Created s s' chain dir i node kids c x off b)
    (h : Mounted s f chain) (hdir : DirRef s f dir) (h0 : node.filename.get 0 ≠ 0x00)
    (hE5 : node.filename.get 0 ≠ 0xE5) {K t : Forest Entry}
    (hkids : Decodes s'.sdb (.cons node.entry K .nil)) (hback : ReadsBack s.sdb t)
    (heq : Forest.SibEquiv t (viewTree s f)) :
    ∃ n, ReadsBack s'.sdb (addEntry s dir node.entry K n t) := by
  obtain ⟨htops, hdec⟩ := hback
  obtain ⟨l₁, l₂, h₁, h₂⟩ := hcr.reads_dir h hdir.liveRef h0 hE5
  refine ⟨l₁.length, ?_⟩
  cases dir with
  | rootfile =>
    refine ⟨(Forest.tops_insertTop _ _ (htops.trans h₁)).trans h₂.symm, ?_⟩
    refine decodes_insertTop hkids ?_
    -- no other directory has changed
    have hd := decodes_graft (P := fun _ => False) (n := 0) (fun _ h => h.elim) hkids hdec
      fun e he hsub => by
        rw [if_neg not_false]
        obtain ⟨j, hj, rfl⟩ := mem_of_equiv heq he
        exact hcr.sameDir h trivial (live_of_isSubdir hj hsub) FileRef.noConfusion
    rwa [Forest.graft_of_not_mem fun _ _ => not_false] at hd
  | slot j₀ =>
    have hroot : dirEntries s'.sdb rootSectors = dirEntries s.sdb rootSectors :=
      dirEntries_congr fun y hy => hcr.sectors_ne h hdir.liveRef (r := .rootfile) trivial
        FileRef.noConfusion hy
    refine ⟨by rw [addEntry, Forest.tops_graft, htops, hroot], ?_⟩
    refine decodes_graft (fun e he => he.1) hkids hdec fun e he hsub => ?_
    obtain ⟨j, hj, rfl⟩ := mem_of_equiv heq he
    have hlive := live_of_isSubdir hj hsub
    by_cases hat : AtDir s j₀ (s.filelist j).entry
    · obtain rfl := (h.atDir_iff hdir hj).mp hat
      rw [if_pos hat]
      exact ⟨_, l₁, l₂, DirSecs.chain (h.volume.chains j hlive),
        DirSecs.chain (hcr.fileChain h hlive), h₁, h₂, rfl⟩
    · rw [if_neg hat]
      refine hcr.sameDir h hdir.liveRef hlive fun he => hat ((h.atDir_iff hdir hj).mpr ?_)
      cases he
      rfl

/-- The tree in memory is the old tree with the new entry. -/
theorem Created.equiv (hcr : Created s s' chain dir i node kids c x off b)
    (h : Mounted s f chain) (hdir : DirRef s f dir) {t : Forest Entry}
    (heq : Forest.SibEquiv t (viewTree s f)) (n : Nat) :
    Forest.SibEquiv (addEntry s dir node.entry (viewTree s' kids) n t)
      (viewTree s' (replaceChildren f dir (.cons i kids (childrenOf f dir)))) := by
  have hview : viewTree s' f = viewTree s f := viewTree_congr fun j hj => hcr.entries h hj
  cases dir with
  | rootfile =>
    refine (Forest.insertTop_equiv _ _ _ _).trans ?_
    show Forest.SibEquiv _ (.cons (s'.filelist i).entry (viewTree s' kids) (viewTree s' f))
    rw [hcr.newEntry, hview]
    exact .cons _ (.refl _) heq
  | slot j₀ =>
    have hnew : viewTree s' (f.setKids j₀ (.cons i kids (f.kidsAt j₀))) =
        (viewTree s f).graft (AtDir s j₀) (.cons node.entry (viewTree s' kids)) := by
      rw [viewTree, Forest.map_setKids_cons (P := AtDir s j₀) h.tree.nodup]
      · rw [hcr.newEntry, ← hview]
        rfl
      · intro j hj
        rw [hcr.entries h hj]
        exact h.atDir_iff hdir hj
    show Forest.SibEquiv _ (viewTree s' (f.setKids j₀ (.cons i kids (f.kidsAt j₀))))
    rw [hnew]
    refine (Forest.graft_equiv ?_ t).trans
      (Forest.SibEquiv.graft ?_ heq)
    · intro f f' hff
      exact (Forest.insertTop_equiv _ _ _ _).trans (.cons _ (.refl _) hff)
    · intro f f' hff
      exact .cons _ (.refl _) hff

/-- **Creation keeps the agreement.** -/
theorem Created.inSync (hcr : Created s s' chain dir i node kids c x off b)
    (h : Mounted s f chain) (hsync : InSync s f) (hdir : DirRef s f dir)
    (hused : node.used = true) (hfa : node.fa = some dir) (h0 : node.filename.get 0 ≠ 0x00)
    (hE5 : node.filename.get 0 ≠ 0xE5)
    (hkids : Decodes s'.sdb (.cons node.entry (viewTree s' kids) .nil)) :
    InSync s' (replaceChildren f dir (.cons i kids (childrenOf f dir))) := by
  obtain ⟨t, hback, heq⟩ := hsync.readsBack
  obtain ⟨n, hback'⟩ := hcr.readsBack h hdir h0 hE5 hkids hback heq
  exact InSync.of_readsBack (hcr.memTree h hdir.liveRef hused hfa) hback' (hcr.equiv h hdir heq n)

/-- The sector of a new directory has two entries. -/
theorem usedOffsets_dotSector {dot dotdot : File} (h : dot.filename.get 0 = 0x2E)
    (h' : dotdot.filename.get 0 = 0x2E) :
    (usedOffsets (dotSector dot dotdot)).map (entryAt (dotSector dot dotdot)) =
      [dot.entry, dotdot.entry] := by
  have hget0 : (dotSector dot dotdot).get 0 = 0x2E := by
    rw [dotSector, get_putDirEntry_ne _ _ (by omega), ← h]
    exact get_putDirEntry_name _ dot (by decide) (by decide : 0 < 11)
  have hget32 : (dotSector dot dotdot).get 32 = 0x2E := by
    rw [dotSector, ← h']
    exact get_putDirEntry_name _ dotdot (by decide : 32 + 32 ≤ 512) (by decide : 0 < 11)
  have hrest : ∀ off, 64 ≤ off → slotFree (dotSector dot dotdot) off = true := by
    intro off hoff
    rw [slotFree, dotSector, get_putDirEntry_ne _ _ (by omega), get_putDirEntry_ne _ _ (by omega)]
    simp
  have hused : usedOffsets (dotSector dot dotdot) = [0, 32] := by
    have hcongr : usedOffsets (dotSector dot dotdot) =
        dirEntryOffsets.filter fun off => decide (off < 64) := by
      refine List.filter_congr fun off hoff => ?_
      obtain ⟨i, hi, rfl⟩ := mem_dirEntryOffsets.mp hoff
      by_cases h64 : i * 32 < 64
      · have hi2 : i = 0 ∨ i = 1 := by omega
        rcases hi2 with rfl | rfl
        · simp [slotFree, hget0]
        · simp [slotFree, hget32]
      · rw [hrest _ (by omega), decide_eq_false h64]
        rfl
    rw [hcongr]
    decide
  have he0 : entryAt (dotSector dot dotdot) 0 = dot.entry := by
    rw [← entryAt_putDirEntry (Bytes.zero 512) dot (by decide : 0 + 32 ≤ 512)]
    exact entryAt_congr fun k _ hk => get_putDirEntry_ne _ _ (by omega)
  have he32 : entryAt (dotSector dot dotdot) 32 = dotdot.entry :=
    entryAt_putDirEntry _ dotdot (by decide)
  rw [hused, List.map_cons, List.map_cons, he0, he32]
  rfl

/-- A new directory reads as `.` and `..`. -/
theorem Created.decodes_dots {j₁ j₂ : Fin 100} {dot dotdot : File}
    (hcr : Created s s' chain dir i node (.cons j₁ .nil (.cons j₂ .nil .nil)) c x off
      (dotSector dot dotdot)) (h : Mounted s f chain) (hdir : LiveRef s f dir)
    (hused : node.used = true) (hfa : node.fa = some dir) (hclus : node.fstClus = UInt16.ofNat c)
    (hsub : node.entry.IsSubdir) (hdot : dot.filename.get 0 = 0x2E)
    (hdotdot : dotdot.filename.get 0 = 0x2E) (h₁ : Relink dot (s'.filelist j₁))
    (h₂ : Relink dotdot (s'.filelist j₂)) :
    Decodes s'.sdb (.cons node.entry (viewTree s' (.cons j₁ .nil (.cons j₂ .nil .nil))) .nil) := by
  have he₁ : (s'.filelist j₁).entry = dot.entry := by
    obtain ⟨son, sib, he⟩ := h₁
    rw [he]
    rfl
  have he₂ : (s'.filelist j₂).entry = dotdot.entry := by
    obtain ⟨son, sib, he⟩ := h₂
    rw [he]
    rfl
  have hview : viewTree s' (.cons j₁ .nil (.cons j₂ .nil .nil)) =
      .cons dot.entry .nil (.cons dotdot.entry .nil .nil) := by
    rw [← he₁, ← he₂]
    rfl
  have hleaf : ∀ {file : File}, file.filename.get 0 = 0x2E → ¬ file.entry.IsSubdir :=
    fun hd hs => hs.2 hd
  -- the chain of the new directory
  have hm := hcr.mounted h hdir hused hfa hclus
  have hlive : Live s' (replaceChildren f dir (.cons i (.cons j₁ .nil (.cons j₂ .nil .nil))
      (childrenOf f dir))) i := by
    refine live_of_isSubdir ((Created.mem_labels h hdir).mpr (.inl rfl)) ?_
    rw [hcr.newEntry]
    exact hsub
  have hK := hm.volume.chains i hlive
  rw [Function.update_self] at hK
  have hfc : firstClus s' i = node.entry.fstClus.toNat :=
    congrArg (fun e : Entry => e.fstClus.toNat) hcr.newEntry
  rw [hfc] at hK
  rw [hview]
  refine ⟨?_, ⟨?_, trivial, ?_, trivial, trivial⟩, trivial⟩
  · rw [if_pos hsub]
    refine ⟨[c + 31], DirSecs.chain hK, ?_⟩
    rw [dirEntries_cons, hcr.cluster, usedOffsets_dotSector hdot hdotdot]
    rfl
  · rw [if_neg (hleaf hdot)]
  · rw [if_neg (hleaf hdotdot)]

/-- Tree and disk after a creation in `dir`: they agree on the old tree with the node `i`
and its children `kids`, and nothing else has changed. -/
structure AddsNode (s s' : Fs) (f : Forest (Fin 100)) (chain : Fin 100 → List Nat) (dir : FileRef)
    (i : Fin 100) (kids : Forest (Fin 100)) : Prop where
  fresh : ∀ j ∈ i :: kids.labels, j ∉ f.labels
  tree : MemTree s' (replaceChildren f dir (.cons i kids (childrenOf f dir)))
  inSync : InSync s' (replaceChildren f dir (.cons i kids (childrenOf f dir)))
  entries : ∀ j ∈ f.labels, (s'.filelist j).entry = (s.filelist j).entry
  chains : ∀ j, Live s f j → FileChain s'.sdb (firstClus s' j) (chain j)
  contents : ∀ r, LiveRef s f r → r ≠ dir → ∀ y ∈ dirSectors chain r, s'.sdb y = s.sdb y
  slot : ∃ x ∈ dirSectors chain dir, ∃ off ∈ dirEntryOffsets,
    (∀ y ∈ dirSectors chain dir, y ≠ x → s'.sdb y = s.sdb y) ∧
    ∀ k, k < off ∨ off + 32 ≤ k → (s'.sdb x).get k = (s.sdb x).get k

theorem Created.addsNode (hcr : Created s s' chain dir i node kids c x off b)
    (h : Mounted s f chain) (hsync : InSync s f) (hdir : DirRef s f dir)
    (hused : node.used = true) (hfa : node.fa = some dir) (h0 : node.filename.get 0 ≠ 0x00)
    (hE5 : node.filename.get 0 ≠ 0xE5)
    (hkids : Decodes s'.sdb (.cons node.entry (viewTree s' kids) .nil)) :
    AddsNode s s' f chain dir i kids := by
  refine ⟨?_, hcr.memTree h hdir.liveRef hused hfa,
    hcr.inSync h hsync hdir hused hfa h0 hE5 hkids, fun j hj => hcr.entries h hj, ?_,
    fun r hr hne y hy => hcr.sectors_ne h hdir.liveRef hr hne hy, x, hcr.sector, off,
    List.mem_of_find?_eq_some hcr.slot, ?_, ?_⟩
  · intro j hj
    rcases List.mem_cons.mp hj with rfl | hj
    · exact h.tree.not_mem_of_unused hcr.unused
    · exact h.tree.not_mem_of_unused (hcr.kidsFresh j hj).1
  · intro j hj
    rw [firstClus, (hcr.sameNode h hj.1).2]
    exact hcr.fileChain h hj
  · intro y hy hyx
    refine hcr.touches.data y (.inr (dirSectors_range h hdir.liveRef hy).1) ?_
    rintro (hx | hc)
    · exact hyx hx
    · exact dirSectors_ne_free h hdir.liveRef hy hcr.free hc
  · intro k hk
    rw [hcr.entry]
    exact get_putDirEntry_ne _ _ hk

/-- **Creation agrees on disk and in memory.** -/
theorem create_inSync {filename : Name} {wrtTime wrtDate : UInt16} (h : Mounted s f chain)
    (hsync : InSync s f) (hdir : DirRef s f dir)
    (hroom : ∃ x ∈ dirSectors chain dir, HasFreeSlot (s.sdb x))
    (hfree : 1 ≤ (freeClusters s.sdb).card) (hslots : 3 ≤ (freeSlots s).card)
    (hname : NameUnused s f dir filename) (h0 : filename.get 0 ≠ 0x00)
    (hE5 : filename.get 0 ≠ 0xE5) (hdot : filename.get 0 ≠ 0x2E) :
    (∃ s' i clus, createEmptyFile s dir filename 0x20 wrtTime wrtDate = .ok (true, s') ∧
      AddsNode s s' f chain dir i .nil ∧
      (s'.filelist i).entry = ⟨filename, 0x20, wrtTime, wrtDate, clus, 0⟩) ∧
    (∃ s' i j₁ j₂ clus, createEmptyDirectory s dir filename wrtTime wrtDate = .ok (true, s') ∧
      AddsNode s s' f chain dir i (.cons j₁ .nil (.cons j₂ .nil .nil)) ∧
      (s'.filelist i).entry = ⟨filename, 0x10, wrtTime, wrtDate, clus, 0⟩ ∧
      (s'.filelist j₁).entry = ⟨dotName 1, 0x10, wrtTime, wrtDate, clus, 0⟩ ∧
      (s'.filelist j₂).entry = ⟨dotName 2, (s.file dir).attr, (s.file dir).wrtTime,
        (s.file dir).wrtDate, (s.file dir).fstClus, (s.file dir).fileSize⟩) := by
  have hclus := isFree_of_card_pos hfree
  constructor
  · obtain ⟨s', i, c, x, off, hrun, hcr⟩ := createEmptyFile_ok
      h hdir.liveRef hname 0x20 hclus (by omega) hroom
    refine ⟨s', i, UInt16.ofNat c, hrun, hcr.addsNode h hsync hdir rfl rfl h0 hE5 ?_, hcr.newEntry⟩
    refine ⟨?_, trivial, trivial⟩
    rw [if_neg fun hsub => absurd hsub.1 (by decide : (0x20 : UInt8) ≠ 0x10)]
    rfl
  · obtain ⟨s', i, j₁, j₂, c, x, off, node, dot, dotdot, hrun, rfl, rfl, rfl, h₁, h₂, hcr⟩ :=
      createEmptyDirectory_ok h hdir.liveRef hname hclus
        hslots hroom
    refine ⟨s', i, j₁, j₂, UInt16.ofNat c, hrun, hcr.addsNode h hsync hdir rfl rfl h0 hE5 ?_,
      hcr.newEntry, ?_, ?_⟩
    · exact hcr.decodes_dots h hdir.liveRef rfl rfl rfl ⟨rfl, hdot⟩ (by rfl) (by rfl) h₁ h₂
    · obtain ⟨son, sib, he⟩ := h₁
      rw [he]
      rfl
    · obtain ⟨son, sib, he⟩ := h₂
      rw [he]
      rfl

end Create

theorem oneFileFs_readsBack : ReadsBack oneFileFs.sdb (.cons oneFile.entry .nil .nil) := by
  refine ⟨?_, ?_, trivial, trivial⟩
  · have hput := dirEntries_put (d := fun _ => Bytes.zero 512) (e := oneFileFs.sdb) (x := 19)
      (l := rootSectors) (by decide) (by decide)
      (fun y hy hne => by
        have := List.mem_range'_1.mp hy
        show smallVolume _ _ _ y = _
        rw [smallVolume, if_neg (by omega), if_neg hne, if_neg (by omega)])
      rfl (by decide) (by decide) (by decide) (by decide)
    obtain ⟨l₁, l₂, hnone, hall⟩ := hput
    have hempty : dirEntries (fun _ => Bytes.zero 512) rootSectors = [] := by decide
    rw [hempty] at hnone
    obtain ⟨rfl, rfl⟩ := List.append_eq_nil_iff.mp hnone.symm
    exact hall.symm
  · rw [if_neg (by decide)]

theorem oneFileFs_inSync : InSync oneFileFs (.cons 0 .nil .nil) :=
  InSync.of_readsBack oneFileFs_mounted.tree oneFileFs_readsBack (Forest.SibEquiv.refl _)

/-- A second file and a directory can be created beside the file. -/
theorem create_inSync_oneFile :
    (∃ s' i clus, createEmptyFile oneFileFs .rootfile (Bytes.ofFn fun _ => 0x46) 0x20 0 0 =
        .ok (true, s') ∧
      AddsNode oneFileFs s' (.cons 0 .nil .nil) (fun _ => [2]) .rootfile i .nil ∧
      (s'.filelist i).entry = ⟨Bytes.ofFn fun _ => 0x46, 0x20, 0, 0, clus, 0⟩) := by
  refine (create_inSync oneFileFs_mounted oneFileFs_inSync
    (show DirRef _ _ .rootfile from trivial)
    ⟨20, by decide, by decide⟩ ?_ ?_ ?_ (by decide) (by decide) (by decide)).1
  · exact Finset.card_pos.mpr ⟨3, mem_freeClusters.mpr (by decide)⟩
  · have hsub : ({1, 2, 3} : Finset (Fin 100)) ⊆ freeSlots oneFileFs := by
      intro j hj
      simp only [Finset.mem_insert, Finset.mem_singleton] at hj
      rcases hj with rfl | rfl | rfl <;> exact mem_freeSlots.mpr rfl
    exact Finset.card_le_card hsub
  · intro j hj
    obtain rfl := List.mem_singleton.mp hj
    decide

/-! ## Deletion -/

/-- Outside the directories in `Q` the two disks read the same, so what they describe is
the same up to the children of these directories. -/
theorem cut_eq {d d' : Disk} {Q : Entry → Prop} [DecidablePred Q] : ∀ {t t' : Forest Entry},
    Decodes d t → Decodes d' t' → t.tops = t'.tops →
    (∀ e ∈ t.labels, e.IsSubdir → ¬ Q e → SameDir d d' e) →
    (t.graft Q fun _ => .nil) = t'.graft Q fun _ => .nil
  | .nil, .nil, _, _, _, _ => rfl
  | .nil, .cons _ _ _, _, _, h, _ => by cases h
  | .cons _ _ _, .nil, _, _, h, _ => by cases h
  | .cons e kids sibs, .cons e' kids' sibs', h, h', ht, hsame => by
    obtain ⟨rfl, hsibs⟩ := List.cons.inj ht
    obtain ⟨hk, hkd, hsd⟩ := h
    obtain ⟨hk', hkd', hsd'⟩ := h'
    have hself := hsame e (List.mem_cons_self ..)
    rw [Forest.graft, Forest.graft, cut_eq hsd hsd' hsibs fun e he =>
      hsame e (List.mem_cons_of_mem _ (List.mem_append_right _ he))]
    congr 1
    by_cases hQ : Q e
    · rw [if_pos hQ, if_pos hQ]
    rw [if_neg hQ, if_neg hQ]
    by_cases he : e.IsSubdir
    · rw [if_pos he] at hk hk'
      obtain ⟨secs, hs, htops⟩ := hk
      obtain ⟨secs', hs', htops'⟩ := hk'
      obtain ⟨secs₀, hs₀, hs₀', heq⟩ := hself he hQ
      rw [hs.unique hs₀] at htops
      rw [hs'.unique hs₀'] at htops'
      exact cut_eq hkd hkd' (by rw [htops, htops', heq]) fun e he =>
        hsame e (List.mem_cons_of_mem _ (List.mem_append_left _ he))
    · rw [if_neg he] at hk hk'
      rw [hk, hk']

section Delete

variable {s s' : Fs} {f : Forest (Fin 100)} {chain : Fin 100 → List Nat} {r : FileRef}
  {i : Fin 100}

/-- What a deletion that survives a remount would look like: the remount builds the old
tree without the node `i` of the directory `r` and its descendants. -/
def SurvivesRemount (s s' : Fs) (f : Forest (Fin 100)) (r : FileRef) (i : Fin 100) : Prop :=
  ∃ s0 f0, filesystemInit s' = .ok s0 ∧ MemTree s0 f0 ∧ Forest.SibEquiv (viewTree s0 f0)
    (viewTree s (replaceChildren f r ((childrenOf f r).removeTop i)))

/-- A released cluster belongs to a live node of the deleted subtree. -/
theorem doomed_live (hi : i ∈ (childrenOf f r).tops)
    (hlive : ¬ IsDot (s.filelist i)) {k : Nat}
    (hk : k ∈ doomed s chain i ((childrenOf f r).kidsAt i).labels) :
    ∃ y ∈ i :: ((childrenOf f r).kidsAt i).labels, Live s f y ∧ k ∈ chain y ∧
      ∀ k' ∈ chain y, k' ∈ doomed s chain i ((childrenOf f r).kidsAt i).labels := by
  obtain ⟨y, hy, hny, hky⟩ := hk
  have hyf : y ∈ f.labels := by
    rcases List.mem_cons.mp hy with rfl | hy
    · exact childrenOf_subset (Forest.tops_subset_labels hi)
    · exact childrenOf_subset (Forest.kidsAt_labels_subset hy)
  refine ⟨y, hy, ⟨hyf, ?_⟩, hky, fun k' hk' => ⟨y, hy, hny, hk'⟩⟩
  rcases hny with rfl | hny
  · exact hlive
  · exact hny.not_isDot

/-- A subdirectory whose first cluster is not released reads as before. -/
theorem Gone.sameDir (hg : Gone s s' chain r (childrenOf f r) i) (h : Mounted s f chain)
    (hi : i ∈ (childrenOf f r).tops) (hlive : ¬ IsDot (s.filelist i)) {j : Fin 100}
    (hj : Live s f j)
    (hnot : firstClus s j ∉ doomed s chain i ((childrenOf f r).kidsAt i).labels) :
    SameDir s.sdb s'.sdb (s.filelist j).entry := by
  have hK := h.volume.chains j hj
  have hclear : ∀ k ∈ chain j, k ∉ doomed s chain i ((childrenOf f r).kidsAt i).labels := by
    intro k hk hdoom
    obtain ⟨y, -, hy, hky, hall⟩ := doomed_live hi hlive hdoom
    by_cases hjy : j = y
    · subst hjy
      exact hnot (hall _ (h.firstClus_mem hj))
    · exact h.volume.disjoint j y hj hy hjy hk hky
  refine ⟨_, DirSecs.chain hK, DirSecs.chain (hK.congr fun k hk =>
    hg.touches.fat k (hK.lt_fatEntries hk) (hclear k hk)), dirEntries_congr fun y hy => ?_⟩
  obtain ⟨k, hk, rfl⟩ := List.mem_map.mp hy
  refine hg.touches.data _ (.inr (by omega)) ?_
  rintro ⟨k', hk', heq⟩
  have hkk : k = k' := by omega
  exact hclear k hk (hkk ▸ hk')

theorem Gone.rootEntries (hg : Gone s s' chain r (childrenOf f r) i) (h : Mounted s f chain)
    (hi : i ∈ (childrenOf f r).tops) (hlive : ¬ IsDot (s.filelist i)) :
    dirEntries s'.sdb rootSectors = dirEntries s.sdb rootSectors := by
  refine dirEntries_congr fun y hy => ?_
  have hrange := List.mem_range'_1.mp hy
  refine hg.touches.data y (.inr hrange.1) ?_
  rintro ⟨k, hk, rfl⟩
  obtain ⟨z, -, hz, hkz, -⟩ := doomed_live hi hlive hk
  have := ((h.volume.chains z hz).range k hkz).1
  omega

/-- **The entry of a deleted node is still on the disk.** -/
theorem Gone.entry_remains (hg : Gone s s' chain r (childrenOf f r) i) (h : Mounted s f chain)
    (hsync : InSync s f) (hi : i ∈ (childrenOf f r).tops) (hlive : ¬ IsDot (s.filelist i))
    {t' : Forest Entry} (hback : ReadsBack s'.sdb t') : (s.filelist i).entry ∈ t'.labels := by
  classical
  obtain ⟨t, ⟨htops, hdec⟩, heq⟩ := hsync.readsBack
  have hroot := hg.rootEntries h hi hlive
  generalize hC : doomed s chain i ((childrenOf f r).kidsAt i).labels = C
  have hkids : (childrenOf f r).kidsAt i = f.kidsAt i := by
    cases r with
    | rootfile => rfl
    | slot j => exact Forest.kidsAt_kidsAt h.tree.nodup (Forest.tops_subset_labels hi)
  -- the nodes whose directory sectors may have changed are in the deleted subtree
  have hbelow : ∀ x ∈ f.labels,
      ((s.filelist x).entry.IsSubdir ∧ (s.filelist x).entry.fstClus.toNat ∈ C) →
      x = i ∨ x ∈ (f.kidsAt i).labels := by
    rintro x hx ⟨hsub, hxC⟩
    rw [← hC] at hxC
    obtain ⟨y, hy, hly, hky, -⟩ := doomed_live hi hlive hxC
    rw [h.eq_of_firstClus (live_of_isSubdir hx hsub) hly rfl hky, ← hkids]
    exact List.mem_cons.mp hy
  have hcut : (t.graft (fun e => e.IsSubdir ∧ e.fstClus.toNat ∈ C) fun _ => .nil) =
      t'.graft (fun e => e.IsSubdir ∧ e.fstClus.toNat ∈ C) fun _ => .nil := by
    refine cut_eq hdec hback.2 (by rw [htops, hback.1, hroot]) fun e he hsub hQ => ?_
    obtain ⟨j, hj, rfl⟩ := mem_of_equiv heq he
    refine hg.sameDir h hi hlive (live_of_isSubdir hj hsub) fun hdoom => hQ ⟨hsub, ?_⟩
    rw [← hC]
    exact hdoom
  have hif : i ∈ f.labels := childrenOf_subset (Forest.tops_subset_labels hi)
  have hmem := Forest.mem_cut (P := fun x => (s.filelist x).entry.IsSubdir ∧
    (s.filelist x).entry.fstClus.toNat ∈ C) h.tree.nodup hbelow hif
    (Forest.not_mem_kidsAt_self h.tree.nodup hif)
  refine Forest.mem_of_mem_cut (P := fun e => e.IsSubdir ∧ e.fstClus.toNat ∈ C) ?_
  rw [← hcut]
  refine (Forest.SibEquiv.graft (g := fun _ => .nil) (fun _ => .nil) heq).labels_perm.mem_iff.mpr ?_
  rw [viewTree, Forest.map_cut, Forest.labels_map]
  exact List.mem_map.mpr ⟨i, hmem, rfl⟩

/-- The entry tells the node: no other node of the tree has it. -/
theorem Mounted.eq_of_entry (h : Mounted s f chain) {x : Fin 100} (hi : Live s f i)
    (hx : x ∈ f.labels) (he : (s.filelist x).entry = (s.filelist i).entry) : x = i := by
  have hname : (s.filelist x).filename = (s.filelist i).filename := congrArg Entry.filename he
  have hclus : firstClus s x = firstClus s i := congrArg (fun e => e.fstClus.toNat) he
  have hlive : Live s f x := by
    refine ⟨hx, fun hdot => hi.2 ?_⟩
    rwa [IsDot, hname] at hdot
  refine h.eq_of_firstClus hlive hi rfl ?_
  rw [hclus]
  exact h.firstClus_mem hi

theorem Gone.not_survives (hg : Gone s s' chain r (childrenOf f r) i) (h : Mounted s f chain)
    (hsync : InSync s f) (hr : HasRef f r) (hi : i ∈ (childrenOf f r).tops)
    (hlive : ¬ IsDot (s.filelist i)) : ¬ SurvivesRemount s s' f r i := by
  rintro ⟨s0, f0, hinit, hm, heq⟩
  obtain ⟨f1, hm1, hback⟩ := filesystemInit_reads hinit
  rw [hm.unique hm1] at heq
  obtain ⟨x, hx, he⟩ := mem_of_equiv heq (hg.entry_remains h hsync hi hlive hback)
  obtain ⟨hxf, hxi⟩ := (Unlinked.mem_labels h.tree hr hi).mp hx
  have hif : i ∈ f.labels := childrenOf_subset (Forest.tops_subset_labels hi)
  rw [h.eq_of_entry ⟨hif, hlive⟩ hxf he] at hxi
  exact hxi (List.mem_cons_self ..)

/-- **No deletion survives a remount.** After `delete_file`, or `delete_directory` with
`rc = true`, has removed the live node `i`, a remount finds it again, and never builds the
old tree without it. -/
theorem delete_not_survives (h : Mounted s f chain) (hsync : InSync s f) (hr : HasRef f r)
    (hi : Live s f i)
    (hdel : deleteFile s r (.slot i) = .ok (true, s') ∨
      deleteDirectory sibFuel s r (.slot i) true = .ok (true, s')) :
    (∀ s0 f0, filesystemInit s' = .ok s0 → MemTree s0 f0 →
      (s.filelist i).entry ∈ (viewTree s0 f0).labels) ∧ ¬ SurvivesRemount s s' f r i := by
  have hgone : i ∈ (childrenOf f r).tops ∧ Gone s s' chain r (childrenOf f r) i := by
    have hrem : Removed s s' f chain r i true := by
      rcases hdel with hdel | hdel
      · obtain ⟨ok, s1, hrun, hrem, -⟩ := deleteFile_removed h hr hi
        cases hdel.symm.trans hrun
        exact hrem
      · obtain ⟨ok, s1, hrun, hrem, -⟩ := deleteDirectory_removed h hr hi true
        cases hdel.symm.trans hrun
        exact hrem
    cases hrem with
    | gone hc hg => exact ⟨hc, hg⟩
  obtain ⟨hc, hg⟩ := hgone
  refine ⟨fun s0 f0 hinit hm => ?_, hg.not_survives h hsync hr hc hi.2⟩
  obtain ⟨f1, hm1, hback⟩ := filesystemInit_reads hinit
  rw [hm.unique hm1]
  exact hg.entry_remains h hsync hc hi.2 hback

end Delete

theorem oneFileFs_live : Live oneFileFs (.cons 0 .nil .nil) 0 :=
  ⟨List.mem_cons_self .., by decide⟩

/-- The only file of the volume is deleted. -/
theorem delete_not_survives_oneFile :
    ∃ s', deleteFile oneFileFs .rootfile (.slot 0) = .ok (true, s') ∧
      ¬ SurvivesRemount oneFileFs s' (.cons 0 .nil .nil) .rootfile 0 := by
  obtain ⟨ok, s', hrun, hrem, -⟩ := deleteFile_removed oneFileFs_mounted (r := .rootfile) trivial
    oneFileFs_live
  cases hrem with
  | gone hc hg =>
    exact ⟨s', hrun, (delete_not_survives oneFileFs_mounted oneFileFs_inSync (r := .rootfile)
      trivial oneFileFs_live (.inl hrun)).2⟩
  | absent msg hc hs => exact absurd (List.mem_cons_self ..) hc

/-- The file is back after a remount. -/
theorem deletedFile_returns :
    Mounted oneFileFs (.cons 0 .nil .nil) (fun _ => [2]) ∧ InSync oneFileFs (.cons 0 .nil .nil) ∧
      Live oneFileFs (.cons 0 .nil .nil) 0 ∧
      ∃ s', deleteFile oneFileFs .rootfile (.slot 0) = .ok (true, s') ∧
        (∃ s0 f0, filesystemInit s' = .ok s0 ∧ MemTree s0 f0 ∧
          viewTree s0 f0 = viewTree oneFileFs (.cons 0 .nil .nil)) ∧
        ¬ SurvivesRemount oneFileFs s' (.cons 0 .nil .nil) .rootfile 0 := by
  refine ⟨oneFileFs_mounted, oneFileFs_inSync, oneFileFs_live, ?_⟩
  obtain ⟨ok, s', hrun, hrem, -⟩ := deleteFile_removed oneFileFs_mounted (r := .rootfile) trivial
    oneFileFs_live
  cases hrem with
  | gone hc hg =>
    refine ⟨s', hrun, ?_, hg.not_survives oneFileFs_mounted oneFileFs_inSync trivial hc
      oneFileFs_live.2⟩
    refine filesystemInit_ok ⟨?_, oneFileFs_readsBack.2.1, trivial, trivial⟩ (by decide)
    rw [hg.rootEntries oneFileFs_mounted hc oneFileFs_live.2]
    exact oneFileFs_readsBack.1
  | absent msg hc hs => exact absurd (List.mem_cons_self ..) hc

end GwOS
