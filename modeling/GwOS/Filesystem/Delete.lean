import GwOS.Filesystem.Directory
import GwOS.Filesystem.Unlink

/-!
# Deleting files and directories

`delete_file` unlinks a node, releases its chain and frees its slot.
`delete_directory` with `rc` does the same for every named node below it, child
after child; it reads the link to the next child from the child it has just
deleted, and it unlinks the directory itself before its children.

`Gone` is what either of them leaves when it removes the node `i` from the children
of `fa`: `Unlinked` says what has become of the nodes, and the only clusters touched
are those of the subtree.
`deleteDirectory_ok` proves it by induction on the depth, with `deleteSons_ok` as
the loop over the children.
-/

namespace GwOS

theorem Named.not_isDot {file : File} (h : Named file) : ¬ IsDot file := by
  rintro (hd | hd)
  · exact h (by rw [hd]; decide)
  · exact h (by rw [hd]; decide)

/-- The sectors of a set of clusters. -/
def clusterSectors (C : Set Nat) : Set Nat := {sec | ∃ c ∈ C, sec = c + 31}

theorem clusterSectors_mono {C C' : Set Nat} (h : C ⊆ C') : clusterSectors C ⊆ clusterSectors C' := by
  rintro x ⟨c, hc, rfl⟩
  exact ⟨c, h hc, rfl⟩

/-- The clusters that go with the node `i` and its descendants `T`. -/
def doomed (s : Fs) (chain : Fin 100 → List Nat) (i : Fin 100) (T : List (Fin 100)) : Set Nat :=
  clustersOf (fun x => x = i ∨ Named (s.filelist x)) chain (i :: T)

/-- The files whose chains are released. -/
def Doomed (s : Fs) (i : Fin 100) (T : List (Fin 100)) (x : Fin 100) : Prop :=
  x = i ∨ (x ∈ T ∧ Named (s.filelist x))

/-- The node `i` has been removed from the children `F` of `fa`. -/
structure Gone (s s' : Fs) (chain : Fin 100 → List Nat) (fa : FileRef) (F : Forest (Fin 100))
    (i : Fin 100) : Prop where
  outside : ∀ q, (∀ x ∈ i :: (F.kidsAt i).labels, q ≠ .slot x) →
    s'.file q = (relink s fa (predTop F i none) (s.filelist i).nextSib).file q
  sib : (s'.filelist i).nextSib = (s.filelist i).nextSib
  unused : (s'.filelist i).used = false
  touches : Touches s.sdb s'.sdb (doomed s chain i (F.kidsAt i).labels)
    (clusterSectors (doomed s chain i (F.kidsAt i).labels))
  rest : s' = { s with sdb := s'.sdb, rootfile := s'.rootfile, filelist := s'.filelist }

/-- The children `F` of the node `i` have been processed; the clusters in `C` may have
been released. -/
structure SonsGone (s s' : Fs) (i : Fin 100) (F : Forest (Fin 100)) (C : Set Nat) : Prop where
  outside : ∀ q, q ≠ .slot i → (∀ x ∈ F.labels, q ≠ .slot x) → s'.file q = s.file q
  dir : ∃ son, s'.filelist i = { s.filelist i with fstSon := son }
  touches : Touches s.sdb s'.sdb C (clusterSectors C)
  rest : s' = { s with sdb := s'.sdb, rootfile := s'.rootfile, filelist := s'.filelist }

theorem Gone.unlinked {s s' : Fs} {chain : Fin 100 → List Nat} {fa : FileRef}
    {F : Forest (Fin 100)} {i : Fin 100} (h : Gone s s' chain fa F i) : Unlinked s s' fa F i :=
  ⟨h.outside, h.sib, h.unused, h.rest⟩

theorem SonsGone.kept {s s' : Fs} {i : Fin 100} {F : Forest (Fin 100)} {C : Set Nat}
    (h : SonsGone s s' i F C) : SonsKept s s' i F :=
  ⟨h.outside, h.dir, h.rest⟩

theorem SonsGone.refl (s : Fs) (i : Fin 100) (F : Forest (Fin 100)) (C : Set Nat) :
    SonsGone s s i F C :=
  ⟨fun _ _ _ => rfl, ⟨_, rfl⟩, Touches.refl .., rfl⟩

/-- The clusters in `C` are free. -/
def Released (d : Disk) (C : Set Nat) : Prop := ∀ k ∈ C, getFatNextCluster d k = 0

/-- They are free, and their sectors are zero. -/
def Cleared (d : Disk) (C : Set Nat) : Prop :=
  ∀ k ∈ C, getFatNextCluster d k = 0 ∧ d (k + 31) = Bytes.zero 512

theorem Cleared.released {d : Disk} {C : Set Nat} (h : Cleared d C) : Released d C :=
  fun k hk => (h k hk).1

/-- A cluster that has been cleared stays so while others are. -/
theorem Touches.cleared {d d' : Disk} {C : Set Nat} {k : Nat}
    (ht : Touches d d' C (clusterSectors C)) (hlt : k < fatEntries) (hk : k ∉ C)
    (h : getFatNextCluster d k = 0 ∧ d (k + 31) = Bytes.zero 512) :
    getFatNextCluster d' k = 0 ∧ d' (k + 31) = Bytes.zero 512 := by
  constructor
  · rw [ht.fat k hlt hk]
    exact h.1
  · rw [ht.data _ (.inr (by omega)), h.2]
    rintro ⟨c, hc, he⟩
    obtain rfl : k = c := by omega
    exact hk hc

/-- The recursion of `delete_directory` comes to every named node: no named node is below
anything but a named directory. -/
def Swept (s : Fs) : Forest (Fin 100) → Prop
  | .nil => True
  | .cons x kids sibs =>
    ((Named (s.filelist x) ∧ (s.filelist x).attr = 0x10 ∧ Swept s kids) ∨
      ∀ y ∈ kids.labels, ¬ Named (s.filelist y)) ∧ Swept s sibs

/-- There is nothing to come to. -/
theorem Swept.of_none {s : Fs} {F : Forest (Fin 100)}
    (h : ∀ y ∈ F.labels, ¬ Named (s.filelist y)) : Swept s F := by
  induction F with
  | nil => trivial
  | cons x kids sibs _ ihs =>
    exact ⟨.inr fun y hy => h y (List.mem_cons_of_mem _ (List.mem_append_left _ hy)),
      ihs fun y hy => h y (List.mem_cons_of_mem _ (List.mem_append_right _ hy))⟩

theorem Swept.congr {s s' : Fs} {F : Forest (Fin 100)} (h : Swept s F)
    (hnode : ∀ x ∈ F.labels, s'.filelist x = s.filelist x) : Swept s' F := by
  induction F with
  | nil => trivial
  | cons x kids sibs ihk ihs =>
    obtain ⟨hx, hs⟩ := h
    have hkids : ∀ y ∈ kids.labels, s'.filelist y = s.filelist y := fun y hy =>
      hnode y (List.mem_cons_of_mem _ (List.mem_append_left _ hy))
    refine ⟨?_, ihs hs fun y hy => hnode y (List.mem_cons_of_mem _ (List.mem_append_right _ hy))⟩
    rcases hx with ⟨hn, ha, hk⟩ | hnone
    · rw [hnode x (List.mem_cons_self ..)]
      exact .inl ⟨hn, ha, ihk hk hkids⟩
    · refine .inr fun y hy => ?_
      rw [hkids y hy]
      exact hnone y hy

/-! ## One node -/

/-- `clear_file` on a file with a chain. -/
theorem clearFile_ok {s : Fs} {i : Fin 100} {K : List Nat}
    (hK : FileChain s.sdb (firstClus s i) K) :
    ∃ d', clearFile s (.slot i) = .ok { s with sdb := d' } ∧
      Touches s.sdb d' {k | k ∈ K} (sectorsOf K) ∧
      ∀ k ∈ K, getFatNextCluster d' k = 0 ∧ d' (k + 31) = Bytes.zero 512 := by
  have hlen : K.length < walkFuel := by
    have := hK.length_lt
    unfold walkFuel
    omega
  obtain ⟨d', hrun, ht, hz⟩ := clearChain_ok hK.visits hK.range hlen
  refine ⟨d', ?_, ht, hz⟩
  show (clearChain walkFuel s.sdb (firstClus s i) (getFatNextCluster s.sdb (firstClus s i)) >>= _) = _
  rw [hrun]
  rfl

section Node

variable {s s2 : Fs} {chain : Fin 100 → List Nat} {fa : FileRef} {F : Forest (Fin 100)}
  {i : Fin 100}

/-- The last two steps of both functions: release the chain and free the slot. -/
theorem gone_of_sonsGone (hfa : ∀ x ∈ F.labels, .slot x ≠ fa) (hn : F.labels.Nodup)
    (hi : i ∈ F.tops) (hv : Volume s.sdb (Doomed s i (F.kidsAt i).labels) (firstClus s) chain)
    (h2 : SonsGone (relink s fa (predTop F i none) (s.filelist i).nextSib) s2 i (F.kidsAt i)
      (clustersOf (fun x => Named (s.filelist x)) chain (F.kidsAt i).labels)) :
    ∃ d', clearFile s2 (.slot i) = .ok { s2 with sdb := d' } ∧
      Gone s (markUnused { s2 with sdb := d' } (.slot i)) chain fa F i ∧
      (Cleared s2.sdb (clustersOf (fun x => Named (s.filelist x)) chain (F.kidsAt i).labels) →
        Cleared d' (doomed s chain i (F.kidsAt i).labels)) := by
  have hilab := Forest.tops_subset_labels hi
  have hikids := Forest.not_mem_kidsAt_self hn hilab
  have hself := relink_below (s := s) hn hfa hi (List.mem_cons_self ..)
  have hunlinked := h2.kept.unlinked hfa hn hi
  generalize hs1 : relink s fa (predTop F i none) (s.filelist i).nextSib = s1 at h2 hself
  have hsdb1 : s1.sdb = s.sdb := by rw [← hs1, relink_rest]
  obtain ⟨son, hdir⟩ := h2.dir
  rw [hself] at hdir
  have ht2 := h2.touches
  rw [hsdb1] at ht2
  have hsub : clustersOf (fun x => Named (s.filelist x)) chain (F.kidsAt i).labels ⊆
      doomed s chain i (F.kidsAt i).labels := by
    rintro c ⟨x, hx, hnx, hc⟩
    exact ⟨x, List.mem_cons_of_mem _ hx, .inr hnx, hc⟩
  have hK2 : FileChain s2.sdb (firstClus s2 i) (chain i) := by
    have hK := hv.chains i (.inl rfl)
    have hfc : firstClus s2 i = firstClus s i := by rw [firstClus, hdir, firstClus]
    rw [hfc]
    refine hK.congr fun k hk => ht2.fat k (hK.lt_fatEntries hk) ?_
    rintro ⟨x, hx, hnx, hc⟩
    have hxi : i ≠ x := fun he => hikids (he ▸ hx)
    exact hv.disjoint i x (.inl rfl) (.inr ⟨hx, hnx⟩) hxi hk hc
  obtain ⟨d', hclear, ht', hzero⟩ := clearFile_ok hK2
  have hmine : {k | k ∈ chain i} ⊆ doomed s chain i (F.kidsAt i).labels := fun k hk =>
    ⟨i, List.mem_cons_self .., .inl rfl, hk⟩
  obtain ⟨hout, hsib, hunused, hrest⟩ := hunlinked d'
  refine ⟨d', hclear, ⟨hout, hsib, hunused, ?_, hrest⟩, ?_⟩
  · rw [markUnused, Fs.sdb_setFile]
    refine (ht2.mono hsub (clusterSectors_mono hsub)).trans (ht'.mono hmine ?_)
    rintro x ⟨k, hk, rfl⟩
    exact ⟨k, hmine hk, rfl⟩
  · rintro hkids k ⟨x, hx, hnx, hk⟩
    by_cases hki : k ∈ chain i
    · exact hzero k hki
    · -- the chain of a child, cleared before and not touched since
      have hxi : x ≠ i := by
        rintro rfl
        exact hki hk
      have hxT : x ∈ (F.kidsAt i).labels := (List.mem_cons.mp hx).resolve_left hxi
      have hnamed := hnx.resolve_left hxi
      exact ht'.cleared ((hv.chains x (.inr ⟨hxT, hnamed⟩)).lt_fatEntries hk) hki
        (hkids k ⟨x, hxT, hnamed, hk⟩)

/-- **`delete_file`** on a child of `fa`. -/
theorem deleteFile_ok (h : Linked s.filelist fa (s.file fa).fstSon F) (hn : F.labels.Nodup)
    (hlen : F.tops.length < sibFuel) (hfa : ∀ x ∈ F.labels, .slot x ≠ fa) (hi : i ∈ F.tops)
    (hv : Volume s.sdb (Doomed s i (F.kidsAt i).labels) (firstClus s) chain) :
    ∃ s', deleteFile s fa (.slot i) = .ok (true, s') ∧ Gone s s' chain fa F i ∧
      ((∀ y ∈ (F.kidsAt i).labels, ¬ Named (s.filelist y)) →
        Cleared s'.sdb (doomed s chain i (F.kidsAt i).labels)) := by
  obtain ⟨d', hclear, hg, hrel⟩ := gone_of_sonsGone hfa hn hi hv (SonsGone.refl _ i (F.kidsAt i) _)
  refine ⟨_, ?_, hg, fun hnone => ?_⟩
  · rw [deleteFile, deleteFileFromFa_ok h hn hlen hfa hi]
    show (clearFile _ (.slot i) >>= _) = _
    rw [hclear]
    rfl
  · rw [markUnused, Fs.sdb_setFile]
    refine hrel ?_
    rintro k ⟨x, hx, hnx, -⟩
    exact absurd hnx (hnone x hx)

end Node

/-! ## The loop over the children -/

section Sons

variable {s s1 : Fs} {chain : Fin 100 → List Nat} {i x : Fin 100} {P xk xs : Forest (Fin 100)}
  {p : Option FileRef}

/-- The named nodes of `T`. -/
def NamedIn (s : Fs) (T : List (Fin 100)) (x : Fin 100) : Prop := x ∈ T ∧ Named (s.filelist x)

/-- The chains of the nodes behind the deleted one are still there. -/
theorem SonList.dropVolume (h : SonList s i p P (.cons x xk xs))
    (hg : Gone s s1 chain (.slot i) (P.append (.cons x xk xs)) x) (hx : Named (s.filelist x))
    (hv : Volume s.sdb (NamedIn s (Forest.cons x xk xs).labels) (firstClus s) chain) :
    Volume s1.sdb (NamedIn s1 xs.labels) (firstClus s1) chain ∧
      ∀ y ∈ xs.labels, s1.filelist y = s.filelist y := by
  obtain ⟨-, hxP, -, hsub, -⟩ := h.head
  have hkeep := h.keepBehind hg.unlinked
  have ht := hg.touches
  rw [Forest.kidsAt_append hxP] at ht
  have hC : doomed s chain x xk.labels ⊆
      clustersOf (NamedIn s (Forest.cons x xk xs).labels) chain (x :: xk.labels) := by
    rintro c ⟨y, hy, hny, hc⟩
    refine ⟨y, hy, ⟨?_, hny.elim (fun he => he ▸ hx) id⟩, hc⟩
    rcases List.mem_cons.mp hy with rfl | hy
    · exact List.mem_cons_self ..
    · exact List.mem_cons_of_mem _ (List.mem_append_left _ hy)
  refine ⟨hv.release (ht.mono hC (le_refl _)) fun y hy => ?_, hkeep⟩
  obtain ⟨hyxs, hny⟩ := hy
  rw [hkeep y hyxs] at hny
  refine ⟨fun hyx => (hsub y hyx).2 hyxs, ⟨?_, hny⟩, ?_⟩
  · exact List.mem_cons_of_mem _ (List.mem_append_right _ hyxs)
  · rw [firstClus, firstClus, hkeep y hyxs]

/-- **The loop over the children**, for a recursive call that deletes subtrees of fewer
than `n` nodes. -/
theorem deleteSons_ok {r : Fs → FileRef → FileRef → Except Fault (Bool × Fs)} {n : Nat}
    (hrec : ∀ {s : Fs} {F : Forest (Fin 100)} {x : Fin 100},
      Linked s.filelist (.slot i) (s.filelist i).fstSon F → F.labels.Nodup →
      F.tops.length < sibFuel → (∀ y ∈ F.labels, FileRef.slot y ≠ .slot i) → x ∈ F.tops →
      Volume s.sdb (Doomed s x (F.kidsAt x).labels) (firstClus s) chain →
      (F.kidsAt x).labels.length < n →
      ∃ s', r s (.slot i) (.slot x) = .ok (true, s') ∧ Gone s s' chain (.slot i) F x ∧
        (Swept s (F.kidsAt x) → Cleared s'.sdb (doomed s chain x (F.kidsAt x).labels))) :
    ∀ {R P : Forest (Fin 100)} {s : Fs} {p : Option FileRef} {m : Nat}, SonList s i p P R →
      R.tops.length < m → R.labels.length ≤ n →
      Volume s.sdb (NamedIn s R.labels) (firstClus s) chain →
      ∃ s', deleteSons r (.slot i) m s p = .ok s' ∧
        SonsGone s s' i (P.append R)
          (clustersOf (fun x => Named (s.filelist x)) chain R.labels) ∧
        (Swept s R → Cleared s'.sdb
          (clustersOf (fun x => Named (s.filelist x)) chain R.labels))
  | _, _, _, _, 0, _, hm, _, _ => absurd hm (Nat.not_lt_zero _)
  | .nil, P, s, p, m + 1, h, _, _, _ => by
    rw [show p = none from h.rest]
    refine ⟨s, rfl, SonsGone.refl .., ?_⟩
    rintro - k ⟨x, hx, -⟩
    exact absurd hx List.not_mem_nil
  | .cons x xk xs, P, s, p, m + 1, h, hm, hsize, hv => by
    obtain ⟨rfl, hxP, hxsP, hsub, hxt⟩ := h.head
    have hm' : xs.tops.length < m := Nat.lt_of_succ_lt_succ hm
    simp only [Forest.labels, List.length_cons, List.length_append] at hsize
    by_cases hx : Named (s.filelist x)
    · -- the node is deleted, in one of two ways
      have hkids := Forest.kidsAt_append (k := xk) (g := xs) hxP
      have hvx : Volume s.sdb (Doomed s x xk.labels) (firstClus s) chain := by
        refine hv.congr (Touches.refl _ ∅ ∅) fun y hy => ⟨?_, rfl⟩
        rcases hy with rfl | ⟨hy, hny⟩
        · exact ⟨List.mem_cons_self .., hx⟩
        · exact ⟨List.mem_cons_of_mem _ (List.mem_append_left _ hy), hny⟩
      obtain ⟨s1, hrun, hg, hrel⟩ : ∃ s1, (if (s.filelist x).attr = 0x10 then r s (.slot i) (.slot x)
          else deleteFile s (.slot i) (.slot x)) = .ok (true, s1) ∧
          Gone s s1 chain (.slot i) (P.append (.cons x xk xs)) x ∧
          (Swept s (.cons x xk xs) → Cleared s1.sdb (doomed s chain x xk.labels)) := by
        by_cases ha : (s.filelist x).attr = 0x10
        · rw [if_pos ha]
          obtain ⟨s1, hrun, hg, hrel⟩ := hrec h.linked h.nodup h.short h.self hxt
            (by rw [hkids]; exact hvx) (by rw [hkids]; omega)
          rw [hkids] at hrel
          refine ⟨s1, hrun, hg, fun hsw => hrel ?_⟩
          exact hsw.1.elim (fun hd => hd.2.2) Swept.of_none
        · rw [if_neg ha]
          obtain ⟨s1, hrun, hg, hrel⟩ := deleteFile_ok h.linked h.nodup h.short h.self hxt
            (by rw [hkids]; exact hvx)
          rw [hkids] at hrel
          refine ⟨s1, hrun, hg, fun hsw => hrel ?_⟩
          exact hsw.1.elim (fun hd => absurd hd.2.1 ha) id
      obtain ⟨hv1, hkeep⟩ := h.dropVolume hg hx hv
      obtain ⟨s2, hloop, h2, hrel2⟩ := deleteSons_ok hrec (h.drop hg.unlinked) hm' (by omega) hv1
      have hkept := h2.kept.drop h hg.unlinked
      refine ⟨s2, ?_, ⟨hkept.outside, hkept.dir, ?_, hkept.rest⟩, ?_⟩
      · have hx' : (s.file (.slot x)).filename.get 0 ≠ 0x2E := hx
        rw [deleteSons, deleteSon, if_pos hx', Fs.file_slot, hrun]
        exact hloop
      · have ht1 := hg.touches
        rw [hkids] at ht1
        have hC1 : doomed s chain x xk.labels ⊆
            clustersOf (fun y => Named (s.filelist y)) chain (Forest.cons x xk xs).labels := by
          rintro c ⟨y, hy, hny, hc⟩
          refine ⟨y, ?_, hny.elim (fun he => he ▸ hx) id, hc⟩
          rcases List.mem_cons.mp hy with rfl | hy
          · exact List.mem_cons_self ..
          · exact List.mem_cons_of_mem _ (List.mem_append_left _ hy)
        have hC2 : clustersOf (fun y => Named (s1.filelist y)) chain xs.labels ⊆
            clustersOf (fun y => Named (s.filelist y)) chain (Forest.cons x xk xs).labels := by
          rintro c ⟨y, hy, hny, hc⟩
          rw [hkeep y hy] at hny
          exact ⟨y, List.mem_cons_of_mem _ (List.mem_append_right _ hy), hny, hc⟩
        exact (ht1.mono hC1 (clusterSectors_mono hC1)).trans
          (h2.touches.mono hC2 (clusterSectors_mono hC2))
      · rintro hsw k ⟨y, hy, hny, hk⟩
        have hkeep' : Swept s1 xs := hsw.2.congr hkeep
        by_cases hyxs : y ∈ xs.labels
        · rw [← hkeep y hyxs] at hny
          exact hrel2 hkeep' k ⟨y, hyxs, hny, hk⟩
        · -- cleared with `x`, and in no chain behind it
          have hyx : y ∈ x :: xk.labels := by
            rcases List.mem_cons.mp hy with rfl | hy
            · exact List.mem_cons_self ..
            · exact List.mem_cons_of_mem _ ((List.mem_append.mp hy).resolve_right hyxs)
          have hyR : NamedIn s (Forest.cons x xk xs).labels y := ⟨hy, hny⟩
          refine h2.touches.cleared ((hv.chains y hyR).lt_fatEntries hk) ?_
            (hrel hsw k ⟨y, hyx, .inr hny, hk⟩)
          rintro ⟨z, hz, hnz, hkz⟩
          rw [hkeep z hz] at hnz
          have hzR : NamedIn s (Forest.cons x xk xs).labels z :=
            ⟨List.mem_cons_of_mem _ (List.mem_append_right _ hz), hnz⟩
          exact hv.disjoint y z hyR hzR (fun he => hyxs (he ▸ hz)) hk hkz
    · -- `.`, `..` and other names with a leading dot are passed over
      have hv1 : Volume s.sdb (NamedIn s xs.labels) (firstClus s) chain :=
        hv.congr (Touches.refl _ ∅ ∅) fun y hy =>
          ⟨⟨List.mem_cons_of_mem _ (List.mem_append_right _ hy.1), hy.2⟩, rfl⟩
      obtain ⟨s2, hloop, h2, hrel2⟩ := deleteSons_ok hrec h.pass hm' (by omega) hv1
      have hC : clustersOf (fun y => Named (s.filelist y)) chain xs.labels ⊆
          clustersOf (fun y => Named (s.filelist y)) chain (Forest.cons x xk xs).labels := by
        rintro c ⟨y, hy, hny, hc⟩
        exact ⟨y, List.mem_cons_of_mem _ (List.mem_append_right _ hy), hny, hc⟩
      have hkept := h2.kept.pass
      refine ⟨s2, ?_, ⟨hkept.outside, hkept.dir, h2.touches.mono hC (clusterSectors_mono hC),
        hkept.rest⟩, ?_⟩
      · have hx' : ¬ (s.file (.slot x)).filename.get 0 ≠ 0x2E := hx
        rw [deleteSons, deleteSon, if_neg hx']
        exact hloop
      · rintro hsw k ⟨y, hy, hny, hk⟩
        refine hrel2 hsw.2 k ⟨y, ?_, hny, hk⟩
        have hnone := hsw.1.resolve_left fun hd => hx hd.1
        rcases List.mem_cons.mp hy with rfl | hy
        · exact absurd hny hx
        · exact (List.mem_append.mp hy).resolve_left fun hyk => hnone y hyk hny

/-- **`delete_directory` with `rc`**, on a child of `fa`: the whole subtree goes. -/
theorem deleteDirectory_ok : ∀ {n : Nat} {s : Fs} {fa : FileRef} {F : Forest (Fin 100)}
    {i : Fin 100}, Linked s.filelist fa (s.file fa).fstSon F → F.labels.Nodup →
    F.tops.length < sibFuel → (∀ x ∈ F.labels, .slot x ≠ fa) → i ∈ F.tops →
    Volume s.sdb (Doomed s i (F.kidsAt i).labels) (firstClus s) chain →
    (F.kidsAt i).labels.length < n →
    ∃ s', deleteDirectory n s fa (.slot i) true = .ok (true, s') ∧ Gone s s' chain fa F i ∧
      (Swept s (F.kidsAt i) → Cleared s'.sdb (doomed s chain i (F.kidsAt i).labels))
  | 0, _, _, _, _, _, _, _, _, _, _, hn => absurd hn (Nat.not_lt_zero _)
  | n + 1, s, fa, F, i, h, hnd, hlen, hfa, hi, hv, hsize => by
    -- the children, after the directory itself has been unlinked
    have hdel := deleteFileFromFa_ok h hnd hlen hfa hi
    have hlist := SonList.first h hnd hfa hi
    have hkeep : ∀ x ∈ i :: (F.kidsAt i).labels, (relink s fa (predTop F i none)
        (s.filelist i).nextSib).filelist x = s.filelist x := fun x hx => relink_below hnd hfa hi hx
    generalize hs1 : relink s fa (predTop F i none) (s.filelist i).nextSib = s1 at hdel hlist hkeep
    have hsdb1 : s1.sdb = s.sdb := by rw [← hs1, relink_rest]
    have hv1 : Volume s1.sdb (NamedIn s1 (F.kidsAt i).labels) (firstClus s1) chain := by
      rw [hsdb1]
      refine hv.congr (Touches.refl _ ∅ ∅) fun y hy => ?_
      have hy' := hkeep y (List.mem_cons_of_mem _ hy.1)
      refine ⟨.inr ⟨hy.1, hy' ▸ hy.2⟩, ?_⟩
      rw [firstClus, hy', firstClus]
    obtain ⟨s2, hloop, h2, hrel2⟩ := deleteSons_ok (i := i) (n := n)
      (r := fun s fa dir => deleteDirectory n s fa dir true)
      (fun h hnd hlen hfa hi hv hsize => deleteDirectory_ok h hnd hlen hfa hi hv hsize)
      hlist hlist.short (Nat.lt_succ_iff.mp hsize) hv1
    have hset : clustersOf (fun x => Named (s1.filelist x)) chain (F.kidsAt i).labels ⊆
        clustersOf (fun x => Named (s.filelist x)) chain (F.kidsAt i).labels := by
      rintro c ⟨x, hx, hnx, hc⟩
      rw [hkeep x (List.mem_cons_of_mem _ hx)] at hnx
      exact ⟨x, hx, hnx, hc⟩
    have h2' : SonsGone s1 s2 i (F.kidsAt i)
        (clustersOf (fun x => Named (s.filelist x)) chain (F.kidsAt i).labels) :=
      ⟨h2.outside, h2.dir, h2.touches.mono hset (clusterSectors_mono hset), h2.rest⟩
    rw [← hs1] at h2'
    obtain ⟨d', hclear, hg, hrel⟩ := gone_of_sonsGone hfa hnd hi hv h2'
    refine ⟨_, ?_, hg, fun hsw => ?_⟩
    · rw [← Fs.file_slot] at hloop
      simp only [deleteDirectory, if_true, bind, Except.bind, pure, Except.pure, Bool.false_eq_true,
        if_false, hdel, Bool.not_true, hloop, hclear]
    · rw [markUnused, Fs.sdb_setFile]
      have hsw1 : Swept s1 (F.kidsAt i) := hsw.congr fun x hx => hkeep x (List.mem_cons_of_mem _ hx)
      refine hrel ?_
      rintro k ⟨x, hx, hnx, hk⟩
      rw [← hkeep x (List.mem_cons_of_mem _ hx)] at hnx
      exact hrel2 hsw1 k ⟨x, hx, hnx, hk⟩

end Sons

/-! ## The whole tree -/

section Whole

variable {s s' : Fs} {f : Forest (Fin 100)} {chain : Fin 100 → List Nat} {r : FileRef}
  {i : Fin 100}

/-- The chains of a subtree, out of those of the volume. -/
theorem Mounted.doomed_volume (h : Mounted s f chain) (hi : i ∈ (childrenOf f r).tops)
    (hlive : ¬ IsDot (s.filelist i)) :
    Volume s.sdb (Doomed s i ((childrenOf f r).kidsAt i).labels) (firstClus s) chain := by
  refine h.volume.congr (Touches.refl _ ∅ ∅) fun x hx => ⟨?_, rfl⟩
  rcases hx with rfl | ⟨hx, hnx⟩
  · exact ⟨childrenOf_subset (Forest.tops_subset_labels hi), hlive⟩
  · exact ⟨childrenOf_subset (Forest.kidsAt_labels_subset hx), hnx.not_isDot⟩

/-- **Tree and volume fit after a deletion.** -/
theorem Gone.mounted (hg : Gone s s' chain r (childrenOf f r) i) (h : Mounted s f chain)
    (hr : HasRef f r) (hi : i ∈ (childrenOf f r).tops) (hlive : ¬ IsDot (s.filelist i)) :
    Mounted s' (replaceChildren f r ((childrenOf f r).removeTop i)) chain := by
  refine ⟨hg.unlinked.memTree h.tree hr hi, ?_⟩
  have hC : doomed s chain i ((childrenOf f r).kidsAt i).labels ⊆
      clustersOf (Live s f) chain (i :: ((childrenOf f r).kidsAt i).labels) := by
    rintro c ⟨x, hx, hnx, hc⟩
    refine ⟨x, hx, ⟨?_, hnx.elim (fun he => he ▸ hlive) Named.not_isDot⟩, hc⟩
    rcases List.mem_cons.mp hx with rfl | hx
    · exact childrenOf_subset (Forest.tops_subset_labels hi)
    · exact childrenOf_subset (Forest.kidsAt_labels_subset hx)
  refine h.volume.release (hg.touches.mono hC (le_refl _)) fun x hx => ?_
  obtain ⟨hxf, hxT⟩ := (Unlinked.mem_labels h.tree hr hi).mp hx.1
  obtain ⟨son, sib, hre⟩ := hg.unlinked.relink (q := .slot x) fun y hy => by
    rintro ⟨⟩
    exact hxT hy
  rw [Fs.file_slot, Fs.file_slot] at hre
  refine ⟨hxT, ⟨hxf, ?_⟩, ?_⟩
  · have := hx.2
    rwa [hre] at this
  · rw [firstClus, hre, firstClus]

/-- The loop of `is_dir_empty` returns `false` from both of its exits. -/
theorem emptyLoop_ok (s : Fs) : ∀ {f : Forest (Fin 100)} {fa : FileRef} {p : Option FileRef}
    {n : Nat}, Linked s.filelist fa p f → f.tops.length < n → emptyLoop s n p = .ok false
  | _, _, _, 0, _, hn => absurd hn (Nat.not_lt_zero _)
  | .nil, _, _, n + 1, h, _ => by
    rw [show _ = none from h]
    rfl
  | .cons i kids sibs, _, _, n + 1, h, hn => by
    obtain ⟨rfl, -, -, -, hs⟩ := h
    rw [emptyLoop]
    by_cases hx : (s.file (.slot i)).filename.get 0 ≠ 0x2E
    · rw [if_pos hx]
    · rw [if_neg hx]
      exact emptyLoop_ok s hs (Nat.lt_of_succ_lt_succ hn)

/-- So without `rc` the directory is removed like a file, whatever it contains. -/
theorem deleteDirectory_false (h : MemTree s f) (hi : i ∈ f.labels) (n : Nat) (fa : FileRef) :
    deleteDirectory (n + 1) s fa (.slot i) false = deleteFile s fa (.slot i) := by
  have hempty : isDirEmpty s (.slot i) = .ok false :=
    emptyLoop_ok s (h.children (r := .slot i) hi) (h.tops_lt (.slot i))
  simp only [deleteDirectory, deleteFile, Bool.false_eq_true, if_false, hempty, bind, Except.bind,
    pure, Except.pure]

theorem deleteDirectory_absent {fa dir : FileRef} (n : Nat)
    (h : deleteFileFromFa s fa dir = .ok (false, s')) :
    deleteDirectory (n + 1) s fa dir true = .ok (false, s') := by
  simp only [deleteDirectory, if_true, bind, Except.bind, pure, Except.pure, Bool.false_eq_true,
    if_false, h, Bool.not_false]

/-- What a deletion does to a mounted volume: it removes the node, or it prints a
message because the node is not in that directory. -/
inductive Removed (s s' : Fs) (f : Forest (Fin 100)) (chain : Fin 100 → List Nat) (r : FileRef)
    (i : Fin 100) : Bool → Prop
  | gone (hi : i ∈ (childrenOf f r).tops) (hg : Gone s s' chain r (childrenOf f r) i) :
      Removed s s' f chain r i true
  | absent (msg : String) (hi : i ∉ (childrenOf f r).tops) (hs : s' = s.printf msg) :
      Removed s s' f chain r i false

theorem deleteFile_removed (h : Mounted s f chain) (hr : HasRef f r) (hi : Live s f i) :
    ∃ ok s', deleteFile s r (.slot i) = .ok (ok, s') ∧ Removed s s' f chain r i ok ∧
      ((∀ y ∈ ((childrenOf f r).kidsAt i).labels, ¬ Named (s.filelist y)) → ok = true →
        Cleared s'.sdb (doomed s chain i ((childrenOf f r).kidsAt i).labels)) := by
  have hlinked := h.tree.children hr
  by_cases hc : i ∈ (childrenOf f r).tops
  · obtain ⟨s', hrun, hg, hrel⟩ := deleteFile_ok hlinked (h.tree.children_nodup r)
      (h.tree.tops_lt r) (h.tree.child_ne hr) hc (h.doomed_volume hc hi.2)
    exact ⟨true, s', hrun, .gone hc hg, fun hnone _ => hrel hnone⟩
  · obtain ⟨msg, hrun⟩ := deleteFileFromFa_absent (r := .slot i) hlinked (h.tree.tops_lt r)
      (fun x hx => by rintro ⟨⟩; exact hc hx)
    refine ⟨false, s.printf msg, ?_, .absent msg hc rfl, fun _ ht => absurd ht Bool.false_ne_true⟩
    rw [deleteFile, hrun]
    rfl

theorem deleteDirectory_removed (h : Mounted s f chain) (hr : HasRef f r) (hi : Live s f i)
    (rc : Bool) :
    ∃ ok s', deleteDirectory sibFuel s r (.slot i) rc = .ok (ok, s') ∧
      Removed s s' f chain r i ok ∧
      ((if rc then Swept s ((childrenOf f r).kidsAt i)
        else ∀ y ∈ ((childrenOf f r).kidsAt i).labels, ¬ Named (s.filelist y)) → ok = true →
        Cleared s'.sdb (doomed s chain i ((childrenOf f r).kidsAt i).labels)) := by
  cases rc with
  | false =>
    have hsame : deleteDirectory sibFuel s r (.slot i) false = deleteFile s r (.slot i) :=
      deleteDirectory_false h.tree hi.1 100 r
    rw [hsame]
    exact deleteFile_removed h hr hi
  | true =>
    have hlinked := h.tree.children hr
    by_cases hc : i ∈ (childrenOf f r).tops
    · have hsize : ((childrenOf f r).kidsAt i).labels.length < sibFuel := by
        have := (Forest.kidsAt_nodup (j := i) (h.tree.children_nodup r)).length_le_card
        rw [Fintype.card_fin] at this
        unfold sibFuel
        omega
      obtain ⟨s', hrun, hg, hrel⟩ := deleteDirectory_ok hlinked (h.tree.children_nodup r)
        (h.tree.tops_lt r) (h.tree.child_ne hr) hc (h.doomed_volume hc hi.2) hsize
      exact ⟨true, s', hrun, .gone hc hg, fun hsw _ => hrel hsw⟩
    · obtain ⟨msg, hrun⟩ := deleteFileFromFa_absent (r := .slot i) hlinked (h.tree.tops_lt r)
        (fun x hx => by rintro ⟨⟩; exact hc hx)
      refine ⟨false, s.printf msg, ?_, .absent msg hc rfl, fun _ ht => absurd ht Bool.false_ne_true⟩
      exact deleteDirectory_absent 100 hrun

end Whole

end GwOS
