import GwOS.Filesystem.Agreement
import GwOS.Filesystem.Removal

/-!
# Mounting a well-formed volume

What `build_all_tree` makes of a volume whose subdirectories form a finite tree of disjoint
chains. The tree is given by the places of its entries on the disk (`DirTree`), so that every node
can be traced back to the 32 bytes it was decoded from.

- `DirTree.labels_nodup`: no place is found twice.
- `filesystemInit_decodes`: one node for each live entry, below the node of the directory that
  holds it, in the order on the disk, with the fields of the entry.
-/

namespace GwOS

/-! ## Places on the disk -/

/-- The live entries of a list of sectors, as sector number and offset. -/
def liveEntries (d : Disk) (secs : List Nat) : List (Nat × Nat) :=
  secs.flatMap fun x => (usedOffsets (d x)).map fun off => (x, off)

/-- The entry at a place. -/
def entryOf (d : Disk) (p : Nat × Nat) : Entry := entryAt (d p.1) p.2

/-- The sectors of the clusters in `K`. -/
def sectorList (K : List Nat) : List Nat := K.map (· + 31)

/-- Below every node of the forest of places: the chain of a subdirectory is well-formed and holds
its children, in order. -/
def Described (d : Disk) (chain : Nat × Nat → List Nat) : Forest (Nat × Nat) → Prop
  | .nil => True
  | .cons p kids sibs =>
    (if (entryOf d p).IsSubdir then
      FileChain d (entryOf d p).fstClus.toNat (chain p) ∧
        kids.tops = liveEntries d (sectorList (chain p))
      else kids = .nil) ∧
    Described d chain kids ∧ Described d chain sibs

/-- The live entries of the volume, as a tree: the subdirectories have well-formed chains that are
pairwise disjoint. -/
structure DirTree (d : Disk) (chain : Nat × Nat → List Nat) (t : Forest (Nat × Nat)) : Prop where
  root : t.tops = liveEntries d rootSectors
  below : Described d chain t
  disjoint : t.labels.Pairwise fun p q =>
    (entryOf d p).IsSubdir → (entryOf d q).IsSubdir → List.Disjoint (chain p) (chain q)

theorem liveEntries_dirEntries (d : Disk) (secs : List Nat) :
    (liveEntries d secs).map (entryOf d) = dirEntries d secs := by
  simp only [liveEntries, dirEntries, usedSlots, List.map_flatMap, List.map_map]
  rfl

theorem mem_liveEntries {d : Disk} {secs : List Nat} {p : Nat × Nat} :
    p ∈ liveEntries d secs ↔ p.1 ∈ secs ∧ p.2 ∈ usedOffsets (d p.1) := by
  simp only [liveEntries, List.mem_flatMap, List.mem_map]
  constructor
  · rintro ⟨x, hx, off, hoff, rfl⟩
    exact ⟨hx, hoff⟩
  · rintro ⟨hx, hoff⟩
    exact ⟨p.1, hx, p.2, hoff, rfl⟩

theorem liveEntries_nodup {d : Disk} {secs : List Nat} (h : secs.Nodup) :
    (liveEntries d secs).Nodup := by
  rw [liveEntries, List.nodup_flatMap]
  constructor
  · intro x _
    have hoffs : (usedOffsets (d x)).Nodup :=
      List.Nodup.filter _ (by decide : dirEntryOffsets.Nodup)
    exact hoffs.map fun a b hab => (Prod.mk.inj hab).2
  · refine h.imp fun {x y} hxy p hp hp' => hxy ?_
    obtain ⟨off, -, rfl⟩ := List.mem_map.mp hp
    obtain ⟨off', -, heq⟩ := List.mem_map.mp hp'
    exact (Prod.mk.inj heq).1.symm

/-! ## No place is found twice -/

section Places

variable {d : Disk} {chain : Nat × Nat → List Nat}

/-- The sectors of the subdirectories in `l`. -/
def InSubdir (d : Disk) (chain : Nat × Nat → List Nat) (l : List (Nat × Nat)) (x : Nat) : Prop :=
  ∃ q ∈ l, (entryOf d q).IsSubdir ∧ x ∈ sectorList (chain q)

/-- A place is on the first level, or in a sector of a subdirectory. -/
theorem Described.place {t : Forest (Nat × Nat)} (h : Described d chain t) (p : Nat × Nat)
    (hp : p ∈ t.labels) : p ∈ t.tops ∨ InSubdir d chain t.labels p.1 := by
  induction t with
  | nil => exact absurd hp List.not_mem_nil
  | cons a kids sibs ihKids ihSibs =>
    obtain ⟨ha, hk, hs⟩ := h
    rcases List.mem_cons.mp hp with rfl | hp
    · exact .inl List.mem_cons_self
    rcases List.mem_append.mp hp with hp | hp
    · refine .inr ?_
      by_cases hsub : (entryOf d a).IsSubdir
      · rw [if_pos hsub] at ha
        rcases ihKids hk hp with htop | ⟨q, hq, hin⟩
        · rw [ha.2] at htop
          exact ⟨a, List.mem_cons_self, hsub, (mem_liveEntries.mp htop).1⟩
        · exact ⟨q, List.mem_cons_of_mem _ (List.mem_append_left _ hq), hin⟩
      · rw [if_neg hsub] at ha
        rw [ha] at hp
        exact absurd hp List.not_mem_nil
    · rcases ihSibs hs hp with htop | ⟨q, hq, hin⟩
      · exact .inl (List.mem_cons_of_mem _ htop)
      · exact .inr ⟨q, List.mem_cons_of_mem _ (List.mem_append_right _ hq), hin⟩

/-- The chain of a subdirectory, wherever it is. -/
theorem Described.chain_of_mem {t : Forest (Nat × Nat)} (h : Described d chain t) {p : Nat × Nat}
    (hp : p ∈ t.labels) (hsub : (entryOf d p).IsSubdir) :
    FileChain d (entryOf d p).fstClus.toNat (chain p) := by
  induction t with
  | nil => exact absurd hp List.not_mem_nil
  | cons a kids sibs ihKids ihSibs =>
    rcases List.mem_cons.mp hp with rfl | hp
    · have ha := h.1
      rw [if_pos hsub] at ha
      exact ha.1
    · rcases List.mem_append.mp hp with hp | hp
      · exact ihKids h.2.1 hp
      · exact ihSibs h.2.2 hp

theorem disjoint_sectorList {K K' : List Nat} (h : List.Disjoint K K') :
    List.Disjoint (sectorList K) (sectorList K') := by
  intro x hx hx'
  obtain ⟨k, hk, rfl⟩ := List.mem_map.mp hx
  obtain ⟨k', hk', heq⟩ := List.mem_map.mp hx'
  obtain rfl : k' = k := by omega
  exact h hk hk'

theorem InSubdir.mono {l l' : List (Nat × Nat)} {x : Nat} (h : InSubdir d chain l x)
    (hsub : l ⊆ l') : InSubdir d chain l' x := by
  obtain ⟨q, hq, hin⟩ := h
  exact ⟨q, hsub hq, hin⟩

/-- Two subdirectories that share a sector are not apart. -/
theorem InSubdir.apart {l l' : List (Nat × Nat)} {x : Nat}
    (hapart : ∀ p ∈ l, ∀ q ∈ l', (entryOf d p).IsSubdir → (entryOf d q).IsSubdir →
      List.Disjoint (chain p) (chain q))
    (h : InSubdir d chain l x) (h' : InSubdir d chain l' x) : False := by
  obtain ⟨p, hp, hps, hpx⟩ := h
  obtain ⟨q, hq, hqs, hqx⟩ := h'
  exact disjoint_sectorList (hapart p hp q hq hps hqs) hpx hqx

/-- The places of a forest are different, when the first level is outside the subdirectories. -/
theorem Described.labels_nodup {t : Forest (Nat × Nat)} (h : Described d chain t) (htops : t.tops.Nodup)
    (hout : ∀ p ∈ t.tops, ¬ InSubdir d chain t.labels p.1)
    (hdis : t.labels.Pairwise fun p q => (entryOf d p).IsSubdir → (entryOf d q).IsSubdir →
      List.Disjoint (chain p) (chain q)) : t.labels.Nodup := by
  induction t with
  | nil => exact List.nodup_nil
  | cons a kids sibs ihKids ihSibs =>
    obtain ⟨ha, hk, hs⟩ := h
    obtain ⟨hatops, hstops⟩ := List.nodup_cons.mp htops
    obtain ⟨hadis, hrest⟩ := List.pairwise_cons.mp hdis
    obtain ⟨hkdis, hsdis, hks⟩ := List.pairwise_append.mp hrest
    have hkl : kids.labels ⊆ (Forest.cons a kids sibs).labels := fun p hp =>
      List.mem_cons_of_mem _ (List.mem_append_left _ hp)
    have hsl : sibs.labels ⊆ (Forest.cons a kids sibs).labels := fun p hp =>
      List.mem_cons_of_mem _ (List.mem_append_right _ hp)
    -- every place below `a` is in a sector of `a` or of a subdirectory below it
    have hbelow : ∀ p ∈ kids.labels, InSubdir d chain (a :: kids.labels) p.1 := by
      intro p hp
      by_cases hsub : (entryOf d a).IsSubdir
      · rw [if_pos hsub] at ha
        rcases hk.place p hp with htop | hin
        · rw [ha.2] at htop
          exact ⟨a, List.mem_cons_self, hsub, (mem_liveEntries.mp htop).1⟩
        · exact hin.mono (List.subset_cons_self _ _)
      · rw [if_neg hsub] at ha
        rw [ha] at hp
        exact absurd hp List.not_mem_nil
    have hsub : a :: kids.labels ⊆ (Forest.cons a kids sibs).labels :=
      List.cons_subset.mpr ⟨List.mem_cons_self, hkl⟩
    have hksdis : ∀ p ∈ a :: kids.labels, ∀ q ∈ sibs.labels, (entryOf d p).IsSubdir →
        (entryOf d q).IsSubdir → List.Disjoint (chain p) (chain q) := by
      intro p hp q hq
      rcases List.mem_cons.mp hp with rfl | hp
      · exact hadis q (List.mem_append_right _ hq)
      · exact hks p hp q hq
    have hkn : kids.labels.Nodup := by
      by_cases hsuba : (entryOf d a).IsSubdir
      · rw [if_pos hsuba] at ha
        refine ihKids hk ?_ (fun p hp hin => ?_) hkdis
        · rw [ha.2]
          exact liveEntries_nodup (ha.1.visits.nodup.map fun x y hxy => by simpa using hxy)
        · rw [ha.2] at hp
          refine InSubdir.apart (l := [a]) (fun q hq q' hq' => ?_)
            ⟨a, List.mem_singleton_self a, hsuba, (mem_liveEntries.mp hp).1⟩ hin
          obtain rfl := List.mem_singleton.mp hq
          exact hadis q' (List.mem_append_left _ hq')
      · rw [if_neg hsuba] at ha
        rw [ha]
        exact List.nodup_nil
    have hsn : sibs.labels.Nodup := ihSibs hs hstops
      (fun p hp hin => hout p (List.mem_cons_of_mem _ hp) (hin.mono hsl)) hsdis
    refine List.nodup_cons.mpr ⟨fun hm => ?_, List.nodup_append'.mpr ⟨hkn, hsn, ?_⟩⟩
    · have hself := hout a List.mem_cons_self
      rcases List.mem_append.mp hm with hm | hm
      · exact hself ((hbelow a hm).mono hsub)
      · rcases hs.place a hm with htop | hin
        · exact hatops htop
        · exact hself (hin.mono hsl)
    · intro p hp hp'
      rcases hs.place p hp' with htop | hin
      · exact hout p (List.mem_cons_of_mem _ htop) ((hbelow p hp).mono hsub)
      · exact InSubdir.apart hksdis (hbelow p hp) hin

/-- No place is found twice. -/
theorem DirTree.labels_nodup {t : Forest (Nat × Nat)} (h : DirTree d chain t) :
    t.labels.Nodup := by
  refine h.below.labels_nodup ?_ (fun p hp hin => ?_) h.disjoint
  · rw [h.root]
    exact liveEntries_nodup (by decide)
  · rw [h.root] at hp
    obtain ⟨q, hq, hsub, hx⟩ := hin
    have hroot := List.mem_range'_1.mp (mem_liveEntries.mp hp).1
    obtain ⟨k, hk, hkx⟩ := List.mem_map.mp hx
    have hchain := h.below.chain_of_mem hq hsub
    have hrange := hchain.range k hk
    omega

end Places

/-! ## Mounting -/

/-- The node holds what the 32 bytes at `off` say, numbers with their low byte first. -/
structure DecodedFrom (file : File) (b : Sector) (off : Nat) : Prop where
  filename : ∀ i < 11, file.filename.get i = b.get (off + i)
  attr : file.attr = b.get (off + 11)
  wrtTime : file.wrtTime.toNat = (b.get (off + 22)).toNat + 2 ^ 8 * (b.get (off + 23)).toNat
  wrtDate : file.wrtDate.toNat = (b.get (off + 24)).toNat + 2 ^ 8 * (b.get (off + 25)).toNat
  fstClus : file.fstClus.toNat = (b.get (off + 26)).toNat + 2 ^ 8 * (b.get (off + 27)).toNat
  fileSize : file.fileSize.toNat = (b.get (off + 28)).toNat + 2 ^ 8 * (b.get (off + 29)).toNat +
    2 ^ 16 * (b.get (off + 30)).toNat + 2 ^ 24 * (b.get (off + 31)).toNat

theorem getU16_toNat (b : Sector) (st : Nat) :
    (getU16 b st).toNat = (b.get st).toNat + 2 ^ 8 * (b.get (st + 1)).toNat := by
  have h0 := (b.get st).toNat_lt
  have h1 := (b.get (st + 1)).toNat_lt
  rw [getU16, UInt16.toNat_ofNat', Nat.shiftLeft_eq]
  omega

theorem getU32_toNat (b : Sector) (st : Nat) :
    (getU32 b st).toNat = (b.get st).toNat + 2 ^ 8 * (b.get (st + 1)).toNat +
      2 ^ 16 * (b.get (st + 2)).toNat + 2 ^ 24 * (b.get (st + 3)).toNat := by
  have h0 := (b.get st).toNat_lt
  have h1 := (b.get (st + 1)).toNat_lt
  have h2 := (b.get (st + 2)).toNat_lt
  have h3 := (b.get (st + 3)).toNat_lt
  rw [getU32, UInt32.toNat_ofNat', Nat.shiftLeft_eq, Nat.shiftLeft_eq, Nat.shiftLeft_eq]
  omega

theorem DecodedFrom.of_entry {file : File} {b : Sector} {off : Nat}
    (h : file.entry = entryAt b off) : DecodedFrom file b off := by
  have hname : file.filename = (entryAt b off).filename := congrArg Entry.filename h
  have htime : file.wrtTime = getU16 b (off + 22) := congrArg Entry.wrtTime h
  have hdate : file.wrtDate = getU16 b (off + 24) := congrArg Entry.wrtDate h
  have hclus : file.fstClus = getU16 b (off + 26) := congrArg Entry.fstClus h
  have hsize : file.fileSize = getU32 b (off + 28) := congrArg Entry.fileSize h
  refine ⟨fun i hi => ?_, congrArg Entry.attr h, ?_, ?_, ?_, ?_⟩
  · rw [hname]
    exact Bytes.get_ofFn (fun i => b.get (off + i)) hi
  · rw [htime, getU16_toNat]
  · rw [hdate, getU16_toNat]
  · rw [hclus, getU16_toNat]
  · rw [hsize, getU32_toNat]

/-- What the places describe, `build_tree` reads back. -/
theorem Described.decodes {d : Disk} {chain : Nat × Nat → List Nat} {t : Forest (Nat × Nat)}
    (h : Described d chain t) : Decodes d (t.map (entryOf d)) := by
  induction t with
  | nil => trivial
  | cons p kids sibs ihKids ihSibs =>
    obtain ⟨hp, hk, hs⟩ := h
    refine ⟨?_, ihKids hk, ihSibs hs⟩
    by_cases hsub : (entryOf d p).IsSubdir
    · rw [if_pos hsub] at hp ⊢
      refine ⟨sectorList (chain p), DirSecs.chain hp.1, ?_⟩
      rw [Forest.tops_map, hp.2, liveEntries_dirEntries]
    · rw [if_neg hsub] at hp ⊢
      rw [hp]
      rfl

/-- **Mounting.** The subdirectories of the volume form a finite tree of well-formed, disjoint
chains, and the volume has at most 100 live entries. Then the tree that is built has one node
for each of them: `loc` takes the nodes to the places of the entries, one to one, and turns the
tree into the tree of the directories on the disk. -/
theorem filesystemInit_decodes {s : Fs} {chain : Nat × Nat → List Nat} {t : Forest (Nat × Nat)}
    (h : DirTree s.sdb chain t) (hsize : t.size ≤ 100) :
    ∃ s' f, ∃ loc : Fin 100 → Nat × Nat, filesystemInit s = .ok s' ∧
      Linked s'.filelist .rootfile s'.rootfile.fstSon f ∧ f.labels.Nodup ∧ t.labels.Nodup ∧
      f.map loc = t ∧
      ∀ i ∈ f.labels, DecodedFrom (s'.filelist i) (s.sdb (loc i).1) (loc i).2 := by
  have hback : ReadsBack s.sdb (t.map (entryOf s.sdb)) := by
    refine ⟨?_, h.below.decodes⟩
    rw [Forest.tops_map, h.root, liveEntries_dirEntries]
  obtain ⟨s', f, hinit, hm, hview⟩ := filesystemInit_ok hback
    (by rw [Forest.size_map]; exact hsize)
  obtain ⟨loc, hloc, hentry⟩ := Forest.exists_map_eq hm.nodup hview
  exact ⟨s', f, loc, hinit, hm.linked, hm.nodup, h.labels_nodup, hloc,
    fun i hi => .of_entry (hentry i hi).symm⟩

/-- The places on the volume with the directory `D`: its `.` and `..`, and the file in it. -/
def dirTreePlaces : Forest (Nat × Nat) :=
  .cons (19, 0) (.cons (33, 0) .nil (.cons (33, 32) .nil (.cons (33, 64) .nil .nil))) .nil

theorem dirTreeFs_dirTree : DirTree dirTreeFs.sdb (fun _ => [2]) dirTreePlaces := by
  have hplain : ∀ p ∈ [(33, 0), (33, 32), (33, 64)], ¬ (entryOf dirTreeFs.sdb p).IsSubdir := by decide
  have hchain : FileChain dirTreeFs.sdb (entryOf dirTreeFs.sdb (19, 0)).fstClus.toNat [2] := by
    have hend : IsEnd (getFatNextCluster dirTreeFs.sdb 2) := by decide
    exact ⟨⟨rfl, by decide, hend⟩, by decide, by decide⟩
  refine ⟨by decide +kernel, ⟨?_, ⟨?_, trivial, ?_, trivial, ?_, trivial, trivial⟩, trivial⟩, ?_⟩
  · rw [if_pos (by decide)]
    exact ⟨hchain, by decide +kernel⟩
  · rw [if_neg (hplain (33, 0) (by decide))]
  · rw [if_neg (hplain (33, 32) (by decide))]
  · rw [if_neg (hplain (33, 64) (by decide))]
  · refine List.pairwise_cons.mpr ⟨fun q hq _ hsub => absurd hsub (hplain q hq), ?_⟩
    exact List.pairwise_of_forall_mem_list fun p hp _ _ hsub => absurd hsub (hplain p hp)

/-- The volume with a file in a directory is mounted. -/
theorem filesystemInit_decodes_subdirectory : ∃ s' f, ∃ loc : Fin 100 → Nat × Nat,
    filesystemInit dirTreeFs = .ok s' ∧ Forest.map loc f = dirTreePlaces := by
  obtain ⟨s', f, loc, hinit, -, -, -, hloc, -⟩ :=
    filesystemInit_decodes dirTreeFs_dirTree (by decide)
  exact ⟨s', f, loc, hinit, hloc⟩

end GwOS
