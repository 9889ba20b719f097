import GwOS.Filesystem.Volume
import GwOS.Filesystem.Tree

/-!
# Directories on disk

The entries of a directory lie in the root directory area (sectors 19 to 32) or
in the sectors of the directory's cluster chain. `DirWalk` is the order in which
`create_dir_entry` and `build_tree` visit these sectors; both loops follow it, so
their lemmas are inductions over the walk and not over the FAT.

- `createDirEntry_ok`: with a free slot, the entry goes into the first free slot
  of one sector of the directory.
- `createDirEntry_full`: without one, the entry goes into a new cluster that is
  linked behind the *end mark* of the chain.
- The codec lemmas: what `make_file_from_sector` reads back from the entry that
  `create_dir_entry_in_sector` wrote.
-/

namespace GwOS

/-! ## The walk over the sectors of a directory -/

/-- Where the loops over a directory stop. -/
def DirStop (clusID secID : Nat) : Prop :=
  (clusID = 0 ∧ secID = 33) ∨ (clusID ≠ 0 ∧ IsEnd clusID)

/-- The next position of these loops. -/
def dirNext (d : Disk) (clusID secID : Nat) : Nat × Nat :=
  if clusID = 0 then (clusID, u16 (secID + 1))
  else (getFatNextCluster d clusID, u16 (getFatNextCluster d clusID + clusToSec))

/-- From `clusID`, `secID` the loops visit the sectors `secs`, all on the disk, and
stop with `clusID = e`. -/
def DirWalk (d : Disk) (e : Nat) : Nat → Nat → List Nat → Prop
  | clusID, secID, [] => DirStop clusID secID ∧ clusID = e
  | clusID, secID, sec :: secs =>
    ¬ DirStop clusID secID ∧ secID = sec ∧ sec ≤ secCnt ∧
      DirWalk d e (dirNext d clusID secID).1 (dirNext d clusID secID).2 secs

/-- The sectors of the root directory. -/
def rootSectors : List Nat := List.range' 19 14

theorem dirWalk_root_from (d : Disk) : ∀ (n sec : Nat), sec + n = 33 →
    DirWalk d 0 0 sec (List.range' sec n)
  | 0, sec, h => ⟨.inl ⟨rfl, by omega⟩, rfl⟩
  | n + 1, sec, h => by
    have hu : u16 (sec + 1) = sec + 1 := by
      unfold u16
      omega
    refine ⟨?_, rfl, by unfold secCnt; omega, ?_⟩
    · rintro (⟨-, h33⟩ | ⟨h0, -⟩)
      · omega
      · exact h0 rfl
    · rw [dirNext, if_pos rfl, hu]
      exact dirWalk_root_from d n (sec + 1) (by omega)

theorem dirWalk_root (d : Disk) : DirWalk d 0 0 19 rootSectors :=
  dirWalk_root_from d 14 19 rfl

/-- The sectors of a directory with a cluster chain. -/
theorem dirWalk_chain {d : Disk} : ∀ {K : List Nat} {c : Nat},
    Chain.Visits (getFatNextCluster d) IsEnd c K → (∀ k ∈ K, 2 ≤ k ∧ k ≤ 2848) →
    ∃ e, IsEnd e ∧ DirWalk d e c (u16 (c + clusToSec)) (K.map (· + 31))
  | [], c, hv, _ => by
    have hend : IsEnd c := hv
    refine ⟨c, hend, .inr ⟨?_, hend⟩, rfl⟩
    unfold IsEnd at hend
    omega
  | k :: K, c, hv, hr => by
    obtain ⟨rfl, hs, hrest⟩ := hv
    obtain ⟨h2, hle⟩ := hr c (List.mem_cons_self ..)
    have h0 : c ≠ 0 := by omega
    obtain ⟨e, he, hw⟩ := dirWalk_chain hrest fun k hk => hr k (List.mem_cons_of_mem _ hk)
    refine ⟨e, he, ?_, u16_sec hle, sec_le hle, ?_⟩
    · rintro (⟨hc, -⟩ | ⟨-, hc⟩)
      · exact h0 hc
      · exact hs hc
    · rw [dirNext, if_neg h0]
      exact hw

/-- One of the 16 slots of the sector is free. -/
def HasFreeSlot (buff : Sector) : Prop := ∃ off ∈ dirEntryOffsets, slotFree buff off = true

instance (buff : Sector) : Decidable (HasFreeSlot buff) := by
  unfold HasFreeSlot
  infer_instance

theorem createDirEntryInSector_ok {d : Disk} {sec : Nat} (file : File) (hsec : sec ≤ secCnt)
    (h : HasFreeSlot (d sec)) :
    ∃ off, dirEntryOffsets.find? (slotFree (d sec)) = some off ∧
      createDirEntryInSector d sec file =
        .ok (true, Function.update d sec (putDirEntry (d sec) off file)) := by
  obtain ⟨x, hx, hfree⟩ := h
  obtain ⟨off, hoff⟩ := Option.isSome_iff_exists.mp
    (List.find?_isSome.mpr ⟨x, hx, hfree⟩)
  refine ⟨off, hoff, ?_⟩
  simp only [createDirEntryInSector, readSector_ok d hsec, bind, Except.bind, hoff,
    writeSector_ok _ _ hsec, pure, Except.pure]

theorem createDirEntryInSector_full {d : Disk} {sec : Nat} (file : File) (hsec : sec ≤ secCnt)
    (h : ¬ HasFreeSlot (d sec)) : createDirEntryInSector d sec file = .ok (false, d) := by
  have hnone : dirEntryOffsets.find? (slotFree (d sec)) = none :=
    List.find?_eq_none.mpr fun x hx hf => h ⟨x, hx, hf⟩
  simp only [createDirEntryInSector, readSector_ok d hsec, bind, Except.bind, hnone, pure,
    Except.pure]

/-- The two guards of the loops, as one. -/
theorem createDirEntryLoop_step {d : Disk} {file : File} {n c sec : Nat} (h : ¬ DirStop c sec) :
    createDirEntryLoop file (n + 1) d c sec =
      (createDirEntryInSector d sec file >>= fun r =>
        if r.1 then .ok (true, c, r.2)
        else createDirEntryLoop file n r.2 (dirNext r.2 c sec).1 (dirNext r.2 c sec).2) := by
  have h1 : ¬ (c = 0 ∧ sec = 33) := fun hs => h (.inl hs)
  have h2 : ¬ (c ≠ 0 ∧ isEndMark c = true) := fun hs => h (.inr ⟨hs.1, isEndMark_iff.mp hs.2⟩)
  rw [createDirEntryLoop, if_neg h1, if_neg h2]
  refine congrArg _ (funext fun r => ?_)
  obtain ⟨done, d'⟩ := r
  cases done with
  | true => rfl
  | false =>
    simp only [Bool.false_eq_true, if_false, dirNext]
    by_cases h0 : c = 0
    · rw [if_pos h0, if_pos h0]
    · rw [if_neg h0, if_neg h0]

theorem createDirEntryLoop_stop {d : Disk} {file : File} {n c sec : Nat} (h : DirStop c sec) :
    createDirEntryLoop file (n + 1) d c sec = .ok (false, c, d) := by
  rw [createDirEntryLoop]
  rcases h with hs | ⟨h0, he⟩
  · rw [if_pos hs]
  · rw [if_neg (fun hs => h0 hs.1), if_pos ⟨h0, isEndMark_iff.mpr he⟩]

/-- The loop of `create_dir_entry` fills a slot when there is one. -/
theorem createDirEntryLoop_found {d : Disk} {e : Nat} (file : File) {secs : List Nat} {n c sec : Nat}
    (hw : DirWalk d e c sec secs) (hn : secs.length < n) (hfree : ∃ x ∈ secs, HasFreeSlot (d x)) :
    ∃ x off c', x ∈ secs ∧ dirEntryOffsets.find? (slotFree (d x)) = some off ∧
      createDirEntryLoop file n d c sec =
        .ok (true, c', Function.update d x (putDirEntry (d x) off file)) := by
  induction secs generalizing n c sec with
  | nil =>
    obtain ⟨x, hx, -⟩ := hfree
    exact absurd hx List.not_mem_nil
  | cons x secs ih =>
    obtain ⟨n, rfl⟩ : ∃ m, n = m + 1 := ⟨n - 1, by omega⟩
    obtain ⟨hstop, rfl, hsec, hrest⟩ := hw
    rw [createDirEntryLoop_step hstop]
    by_cases hx : HasFreeSlot (d sec)
    · obtain ⟨off, hoff, he⟩ := createDirEntryInSector_ok file hsec hx
      exact ⟨sec, off, c, List.mem_cons_self .., hoff, by rw [he]; rfl⟩
    · have hfree' : ∃ x ∈ secs, HasFreeSlot (d x) := by
        obtain ⟨y, hy, hyf⟩ := hfree
        rcases List.mem_cons.mp hy with rfl | hy
        · exact absurd hyf hx
        · exact ⟨y, hy, hyf⟩
      obtain ⟨y, off, c', hy, hoff, he⟩ := ih hrest (Nat.lt_of_succ_lt_succ hn) hfree'
      refine ⟨y, off, c', List.mem_cons_of_mem _ hy, hoff, ?_⟩
      rw [createDirEntryInSector_full file hsec hx]
      exact he

/-- Otherwise it ends at the end mark, with the disk unchanged. -/
theorem createDirEntryLoop_full {d : Disk} {e : Nat} (file : File) {secs : List Nat} {n c sec : Nat}
    (hw : DirWalk d e c sec secs) (hn : secs.length < n) (hfull : ∀ x ∈ secs, ¬ HasFreeSlot (d x)) :
    createDirEntryLoop file n d c sec = .ok (false, e, d) := by
  induction secs generalizing n c sec with
  | nil =>
    obtain ⟨n, rfl⟩ : ∃ m, n = m + 1 := ⟨n - 1, by rw [List.length_nil] at hn; omega⟩
    obtain ⟨hstop, rfl⟩ := hw
    exact createDirEntryLoop_stop hstop
  | cons x secs ih =>
    obtain ⟨n, rfl⟩ : ∃ m, n = m + 1 := ⟨n - 1, by omega⟩
    obtain ⟨hstop, rfl, hsec, hrest⟩ := hw
    rw [createDirEntryLoop_step hstop,
      createDirEntryInSector_full file hsec (hfull sec (List.mem_cons_self ..))]
    exact ih hrest (Nat.lt_of_succ_lt_succ hn) fun x hx => hfull x (List.mem_cons_of_mem _ hx)

/-! ## The volume and the tree together -/

/-- A node of the tree that owns a chain: not `.` and not `..`. -/
def Live (s : Fs) (f : Forest (Fin 100)) (i : Fin 100) : Prop :=
  i ∈ f.labels ∧ ¬ IsDot (s.filelist i)

/-- The first cluster of a node. -/
def firstClus (s : Fs) (i : Fin 100) : Nat := (s.filelist i).fstClus.toNat

/-- The root, or a live node. -/
def LiveRef (s : Fs) (f : Forest (Fin 100)) : FileRef → Prop
  | .rootfile => True
  | .slot i => Live s f i

theorem LiveRef.hasRef {s : Fs} {f : Forest (Fin 100)} {r : FileRef} (h : LiveRef s f r) :
    HasRef f r := by
  cases r with
  | rootfile => trivial
  | slot i => exact h.1

/-- Tree and volume fit: the nodes of the tree are `f`, and `chain` are the chains
of the live ones. -/
structure Mounted (s : Fs) (f : Forest (Fin 100)) (chain : Fin 100 → List Nat) : Prop where
  tree : MemTree s f
  volume : Volume s.sdb (Live s f) (firstClus s) chain

/-- Agreement of everything `Mounted` looks at in a node. -/
structure SameNode (a b : File) : Prop extends SameLinks a b where
  filename : a.filename = b.filename
  fstClus : a.fstClus = b.fstClus

theorem SameNode.refl (a : File) : SameNode a a := ⟨SameLinks.refl a, rfl, rfl⟩

theorem SameNode.isDot {a b : File} (h : SameNode a b) : IsDot a ↔ IsDot b := by
  rw [IsDot, IsDot, h.filename]

/-- Data writes and changes outside the tree keep everything in place. -/
theorem Mounted.congr {s s' : Fs} {f : Forest (Fin 100)} {chain : Fin 100 → List Nat}
    {S : Set Nat} (h : Mounted s f chain) (hroot : s'.rootfile.fstSon = s.rootfile.fstSon)
    (hnode : ∀ i ∈ f.labels, SameNode (s'.filelist i) (s.filelist i))
    (ht : Touches s.sdb s'.sdb ∅ S) : Mounted s' f chain := by
  refine ⟨h.tree.congr hroot fun i hi => (hnode i hi).toSameLinks, ?_⟩
  refine h.volume.congr ht fun i hi => ?_
  have hn := hnode i hi.1
  refine ⟨⟨hi.1, fun hd => hi.2 (hn.isDot.mpr hd)⟩, ?_⟩
  rw [firstClus, firstClus, hn.fstClus]

/-- A file gets a new size and a new chain, made of its own and of free clusters. -/
theorem Mounted.resized {s s' : Fs} {f : Forest (Fin 100)} {chain : Fin 100 → List Nat}
    {i : Fin 100} {K : List Nat} {F S : Set Nat} {size : UInt32} (h : Mounted s f chain)
    (hi : Live s f i) (hroot : s'.rootfile = s.rootfile)
    (hfile : s'.filelist = Function.update s.filelist i { s.filelist i with fileSize := size })
    (ht : Touches s.sdb s'.sdb F S) (hF : ∀ c ∈ F, c ∈ chain i ∨ IsFree s.sdb c)
    (hK : FileChain s'.sdb (firstClus s i) K) (hsub : ∀ k ∈ K, k ∈ chain i ∨ IsFree s.sdb k) :
    Mounted s' f (Function.update chain i K) := by
  have hnode : ∀ j, SameNode (s'.filelist j) (s.filelist j) := by
    intro j
    rw [hfile]
    by_cases hj : j = i
    · subst hj
      rw [Function.update_self]
      exact ⟨⟨rfl, rfl, rfl, rfl⟩, rfl, rfl⟩
    · rw [Function.update_of_ne hj]
      exact SameNode.refl _
  have hclus : firstClus s' = firstClus s := by
    funext j
    rw [firstClus, firstClus, (hnode j).fstClus]
  have hlive : Live s' f = Live s f := by
    funext j
    rw [Live, Live, (hnode j).isDot]
  refine ⟨h.tree.congr (by rw [hroot]) fun j _ => (hnode j).toSameLinks, ?_⟩
  rw [hclus, hlive]
  exact h.volume.rechain hi ht hF hK hsub

/-- The sectors that hold the entries of a directory. -/
def dirSectors (chain : Fin 100 → List Nat) : FileRef → List Nat
  | .rootfile => rootSectors
  | .slot i => (chain i).map (· + 31)

theorem dirSectors_range {s : Fs} {f : Forest (Fin 100)} {chain : Fin 100 → List Nat}
    (h : Mounted s f chain) {dir : FileRef} (hdir : LiveRef s f dir) {sec : Nat}
    (hsec : sec ∈ dirSectors chain dir) : 19 ≤ sec ∧ sec ≤ 2879 := by
  cases dir with
  | rootfile =>
    have := List.mem_range'_1.mp hsec
    omega
  | slot i =>
    obtain ⟨k, hk, rfl⟩ := List.mem_map.mp hsec
    have := (h.volume.chains i hdir).range k hk
    omega

/-- The sectors of a live node with a chain lie behind the root directory. -/
theorem dirSectors_slot {s : Fs} {f : Forest (Fin 100)} {chain : Fin 100 → List Nat}
    (h : Mounted s f chain) {i : Fin 100} (hi : Live s f i) {sec : Nat}
    (hsec : sec ∈ dirSectors chain (.slot i)) : 33 ≤ sec ∧ sec - 31 ∈ chain i := by
  obtain ⟨k, hk, rfl⟩ := List.mem_map.mp hsec
  have := ((h.volume.chains i hi).range k hk).1
  exact ⟨by omega, by rwa [Nat.add_sub_cancel]⟩

/-- Different directories have different sectors. -/
theorem dirSectors_disjoint {s : Fs} {f : Forest (Fin 100)} {chain : Fin 100 → List Nat}
    (h : Mounted s f chain) {r r' : FileRef} (hr : LiveRef s f r) (hr' : LiveRef s f r')
    (hne : r ≠ r') {sec : Nat} (hsec : sec ∈ dirSectors chain r) : sec ∉ dirSectors chain r' := by
  intro hsec'
  have hroot : ∀ {sec : Nat}, sec ∈ dirSectors chain .rootfile → sec < 33 := fun hs =>
    (List.mem_range'_1.mp hs).2
  cases r with
  | rootfile =>
    cases r' with
    | rootfile => exact hne rfl
    | slot j => exact absurd (hroot hsec) (Nat.not_lt.mpr (dirSectors_slot h hr' hsec').1)
  | slot i =>
    cases r' with
    | rootfile => exact absurd (hroot hsec') (Nat.not_lt.mpr (dirSectors_slot h hr hsec).1)
    | slot j =>
      have hij : i ≠ j := fun he => hne (by rw [he])
      exact h.volume.disjoint i j hr hr' hij (dirSectors_slot h hr hsec).2
        (dirSectors_slot h hr' hsec').2

theorem dirSectors_nodup {s : Fs} {f : Forest (Fin 100)} {chain : Fin 100 → List Nat}
    (h : Mounted s f chain) {r : FileRef} (hr : LiveRef s f r) : (dirSectors chain r).Nodup := by
  cases r with
  | rootfile => exact List.nodup_range'
  | slot i => exact (h.volume.chains i hr).visits.nodup.map fun a b hab => by simpa using hab

/-- A directory's sector is not the sector of a free cluster. -/
theorem dirSectors_ne_free {s : Fs} {f : Forest (Fin 100)} {chain : Fin 100 → List Nat}
    (h : Mounted s f chain) {dir : FileRef} (hdir : LiveRef s f dir) {sec c : Nat}
    (hsec : sec ∈ dirSectors chain dir) (hc : IsFree s.sdb c) : sec ≠ c + 31 := by
  rintro rfl
  cases dir with
  | rootfile =>
    have := List.mem_range'_1.mp hsec
    have := hc.1
    omega
  | slot i =>
    obtain ⟨k, hk, hkc⟩ := List.mem_map.mp hsec
    have : k = c := by omega
    exact (h.volume.chains i hdir).not_free (this ▸ hk) hc

/-- The entries of `dir` lie in the sectors `secs`. -/
def DirOn (s : Fs) (dir : FileRef) (secs : List Nat) : Prop :=
  match dir with
  | .rootfile => secs = rootSectors
  | .slot i => ∃ K, FileChain s.sdb (firstClus s i) K ∧ secs = K.map (· + 31)

theorem Mounted.dirOn {s : Fs} {f : Forest (Fin 100)} {chain : Fin 100 → List Nat}
    (h : Mounted s f chain) {dir : FileRef} (hdir : LiveRef s f dir) :
    DirOn s dir (dirSectors chain dir) := by
  cases dir with
  | rootfile => rfl
  | slot i => exact ⟨chain i, h.volume.chains i hdir, rfl⟩

/-- The walk over the sectors of a directory. -/
theorem DirOn.dirWalk {s : Fs} {dir : FileRef} {secs : List Nat} (h : DirOn s dir secs) :
    ∃ e, (dir = .rootfile ∧ e = 0 ∨ dir ≠ .rootfile ∧ IsEnd e) ∧
      DirWalk s.sdb e (if dir = .rootfile then 0 else (s.file dir).fstClus.toNat)
        (if dir = .rootfile then 19
          else u16 ((if dir = .rootfile then 0 else (s.file dir).fstClus.toNat) + clusToSec))
        secs ∧ secs.length < walkFuel := by
  cases dir with
  | rootfile =>
    rw [show secs = rootSectors from h]
    exact ⟨0, .inl ⟨rfl, rfl⟩, dirWalk_root s.sdb, by decide⟩
  | slot i =>
    obtain ⟨K, hK, rfl⟩ := h
    obtain ⟨e, he, hw⟩ := dirWalk_chain hK.visits hK.range
    refine ⟨e, .inr ⟨by simp, he⟩, ?_, ?_⟩
    · rw [if_neg (by simp), if_neg (by simp)]
      exact hw
    · have := hK.length_lt
      rw [List.length_map]
      unfold walkFuel
      omega

/-- **`create_dir_entry` with a free slot.** The entry fills the first free slot of
a sector of the directory; nothing else changes. -/
theorem createDirEntry_ok {s : Fs} {dir : FileRef} {secs : List Nat} (h : DirOn s dir secs)
    (file : FileRef) (hfree : ∃ x ∈ secs, HasFreeSlot (s.sdb x)) :
    ∃ x off, x ∈ secs ∧ dirEntryOffsets.find? (slotFree (s.sdb x)) = some off ∧
      createDirEntry s dir file =
        .ok (true, { s with
          sdb := Function.update s.sdb x (putDirEntry (s.sdb x) off (s.file file)) }) := by
  obtain ⟨e, -, hw, hlen⟩ := h.dirWalk
  obtain ⟨x, off, c', hx, hoff, he⟩ := createDirEntryLoop_found (s.file file) hw hlen hfree
  refine ⟨x, off, hx, hoff, ?_⟩
  simp only [createDirEntry, he]
  rfl

/-- **`create_dir_entry` in a full directory.** In the root it fails. In a
subdirectory it appends a cluster behind the end mark of the chain. -/
theorem createDirEntry_full {s : Fs} {dir : FileRef} {secs : List Nat} (h : DirOn s dir secs)
    (file : FileRef) (hfull : ∀ x ∈ secs, ¬ HasFreeSlot (s.sdb x)) :
    (dir = .rootfile ∧ createDirEntry s dir file = .ok (false, s)) ∨
    (dir ≠ .rootfile ∧ ∃ e, IsEnd e ∧ createDirEntry s dir file =
      (appendACluster s.sdb e >>= fun r =>
        createDirEntryInSector r.2 (u16 (r.1 + clusToSec)) (s.file file) >>= fun r' =>
          .ok (r'.1, { s with sdb := r'.2 }))) := by
  obtain ⟨e, hend, hw, hlen⟩ := h.dirWalk
  have he := createDirEntryLoop_full (s.file file) hw hlen hfull
  simp only [createDirEntry, he]
  rcases hend with ⟨hroot, rfl⟩ | ⟨hroot, hend⟩
  · exact .inl ⟨hroot, rfl⟩
  · refine .inr ⟨hroot, e, hend, ?_⟩
    have h0 : e ≠ 0 := by
      unfold IsEnd at hend
      omega
    simp only [bind, Except.bind, Bool.false_eq_true, if_false, h0]
    rfl

/-! ## The entry codec -/

theorem getU16_congr {b b' : Sector} {st : Nat}
    (h : ∀ k, st ≤ k → k < st + 2 → b'.get k = b.get k) : getU16 b' st = getU16 b st := by
  rw [getU16, getU16, h st (by omega) (by omega), h (st + 1) (by omega) (by omega)]

theorem getU32_congr {b b' : Sector} {st : Nat}
    (h : ∀ k, st ≤ k → k < st + 4 → b'.get k = b.get k) : getU32 b' st = getU32 b st := by
  rw [getU32, getU32, h st (by omega) (by omega), h (st + 1) (by omega) (by omega),
    h (st + 2) (by omega) (by omega), h (st + 3) (by omega) (by omega)]

theorem get_writeU16_ne (b : Sector) {st k : Nat} (v : UInt16) (h : k < st ∨ st + 2 ≤ k) :
    (writeU16 b st v).get k = b.get k := by
  rw [writeU16, Bytes.get_set_ne _ _ (by omega), Bytes.get_set_ne _ _ (by omega)]

theorem get_writeU32_ne (b : Sector) {st k : Nat} (v : UInt32) (h : k < st ∨ st + 4 ≤ k) :
    (writeU32 b st v).get k = b.get k := by
  rw [writeU32, Bytes.get_set_ne _ _ (by omega), Bytes.get_set_ne _ _ (by omega),
    Bytes.get_set_ne _ _ (by omega), Bytes.get_set_ne _ _ (by omega)]

theorem getU16_writeU16 (b : Sector) {st : Nat} (v : UInt16) (h : st + 1 < 512) :
    getU16 (writeU16 b st v) st = v := by
  have h0 : (writeU16 b st v).get st = UInt8.ofNat v.toNat := by
    rw [writeU16, Bytes.get_set_ne _ _ (by omega), Bytes.get_set_self _ _ (by omega)]
  have h1 : (writeU16 b st v).get (st + 1) = UInt8.ofNat (v.toNat >>> 8) := by
    rw [writeU16, Bytes.get_set_self _ _ h]
  have hv := v.toNat_lt
  apply UInt16.toNat_inj.mp
  rw [getU16, h0, h1, UInt16.toNat_ofNat']
  simp only [UInt8.toNat_ofNat', Nat.shiftLeft_eq, Nat.shiftRight_eq_div_pow]
  omega

theorem getU32_writeU32 (b : Sector) {st : Nat} (v : UInt32) (h : st + 3 < 512) :
    getU32 (writeU32 b st v) st = v := by
  have h0 : (writeU32 b st v).get st = UInt8.ofNat v.toNat := by
    rw [writeU32, Bytes.get_set_ne _ _ (by omega), Bytes.get_set_ne _ _ (by omega),
      Bytes.get_set_ne _ _ (by omega), Bytes.get_set_self _ _ (by omega)]
  have h1 : (writeU32 b st v).get (st + 1) = UInt8.ofNat (v.toNat >>> 8) := by
    rw [writeU32, Bytes.get_set_ne _ _ (by omega), Bytes.get_set_ne _ _ (by omega),
      Bytes.get_set_self _ _ (by omega)]
  have h2 : (writeU32 b st v).get (st + 2) = UInt8.ofNat (v.toNat >>> 16) := by
    rw [writeU32, Bytes.get_set_ne _ _ (by omega), Bytes.get_set_self _ _ (by omega)]
  have h3 : (writeU32 b st v).get (st + 3) = UInt8.ofNat (v.toNat >>> 24) := by
    rw [writeU32, Bytes.get_set_self _ _ h]
  have hv := v.toNat_lt
  apply UInt32.toNat_inj.mp
  rw [getU32, h0, h1, h2, h3, UInt32.toNat_ofNat']
  simp only [UInt8.toNat_ofNat', Nat.shiftLeft_eq, Nat.shiftRight_eq_div_pow]
  omega

/-- An entry occupies its own 32 bytes. -/
theorem get_putDirEntry_ne (b : Sector) {off k : Nat} (file : File)
    (h : k < off ∨ off + 32 ≤ k) : (putDirEntry b off file).get k = b.get k := by
  rw [putDirEntry, get_writeU32_ne _ _ (by omega), get_writeU16_ne _ _ (by omega),
    get_writeU16_ne _ _ (by omega), get_writeU16_ne _ _ (by omega), writeU8,
    Bytes.get_set_ne _ _ (by omega), Bytes.get_setRange_of_not_mem _ _ _ (by omega)]

theorem get_putDirEntry_name (b : Sector) {o i : Nat} (file : File) (hoff : o + 32 ≤ 512)
    (hi : i < 11) : (putDirEntry b o file).get (o + i) = file.filename.get i := by
  rw [putDirEntry, get_writeU32_ne _ _ (by omega), get_writeU16_ne _ _ (by omega),
    get_writeU16_ne _ _ (by omega), get_writeU16_ne _ _ (by omega), writeU8,
    Bytes.get_set_ne _ _ (by omega), Bytes.get_setRange_of_lt _ _ _ hi (by omega)]

/-- What is stored of a node in its directory entry, `Reserved` apart. -/
structure Entry where
  filename : Name
  attr : UInt8
  wrtTime : UInt16
  wrtDate : UInt16
  fstClus : UInt16
  fileSize : UInt32
  deriving DecidableEq

/-- The entry of a node. -/
def File.entry (file : File) : Entry :=
  ⟨file.filename, file.attr, file.wrtTime, file.wrtDate, file.fstClus, file.fileSize⟩

/-- The entry at offset `off` of a sector. -/
def entryAt (b : Sector) (off : Nat) : Entry where
  filename := Bytes.ofFn fun i => b.get (off + i)
  attr := b.get (off + 11)
  wrtTime := getU16 b (off + 22)
  wrtDate := getU16 b (off + 24)
  fstClus := getU16 b (off + 26)
  fileSize := getU32 b (off + 28)

theorem entryAt_congr {b b' : Sector} {off : Nat}
    (h : ∀ k, off ≤ k → k < off + 32 → b'.get k = b.get k) : entryAt b' off = entryAt b off := by
  have hname : (Bytes.ofFn fun i => b'.get (off + i) : Name) =
      Bytes.ofFn fun i => b.get (off + i) := by
    refine Bytes.ext_get fun i hi => ?_
    rw [Bytes.get_ofFn _ hi, Bytes.get_ofFn _ hi, h _ (by omega) (by omega)]
  rw [entryAt, entryAt, hname, h (off + 11) (by omega) (by omega),
    getU16_congr (fun k _ _ => h k (by omega) (by omega)),
    getU16_congr (fun k _ _ => h k (by omega) (by omega)),
    getU16_congr (fun k _ _ => h k (by omega) (by omega)),
    getU32_congr (fun k _ _ => h k (by omega) (by omega))]

/-- **Round trip.** The entry just written reads back as the node's. -/
theorem entryAt_putDirEntry (b : Sector) {off : Nat} (file : File) (hoff : off + 32 ≤ 512) :
    entryAt (putDirEntry b off file) off = file.entry := by
  have hname : (Bytes.ofFn fun i => (putDirEntry b off file).get (off + i) : Name) =
      file.filename := by
    refine Bytes.ext_get fun i hi => ?_
    rw [Bytes.get_ofFn _ hi, get_putDirEntry_name b file hoff hi]
  -- the buffers between the stores, so that each field is read from its own
  let b1 := writeU8 (b.setRange off file.filename.get 11) (off + 11) file.attr
  let b2 := writeU16 b1 (off + 22) file.wrtTime
  let b3 := writeU16 b2 (off + 24) file.wrtDate
  let b4 := writeU16 b3 (off + 26) file.fstClus
  have hput : putDirEntry b off file = writeU32 b4 (off + 28) file.fileSize := rfl
  have h4 : ∀ k, k < off + 28 → (putDirEntry b off file).get k = b4.get k := fun k hk => by
    rw [hput, get_writeU32_ne _ _ (.inl hk)]
  have h3 : ∀ k, k < off + 26 → (putDirEntry b off file).get k = b3.get k := fun k hk => by
    rw [h4 k (by omega), get_writeU16_ne _ _ (.inl hk)]
  have h2 : ∀ k, k < off + 24 → (putDirEntry b off file).get k = b2.get k := fun k hk => by
    rw [h3 k (by omega), get_writeU16_ne _ _ (.inl hk)]
  have h1 : ∀ k, k < off + 22 → (putDirEntry b off file).get k = b1.get k := fun k hk => by
    rw [h2 k (by omega), get_writeU16_ne _ _ (.inl hk)]
  have hattr : (putDirEntry b off file).get (off + 11) = file.attr := by
    rw [h1 _ (by omega)]
    exact Bytes.get_set_self _ _ (by omega)
  have htime : getU16 (putDirEntry b off file) (off + 22) = file.wrtTime := by
    rw [getU16_congr fun k _ hk => h2 k (by omega)]
    exact getU16_writeU16 _ _ (by omega)
  have hdate : getU16 (putDirEntry b off file) (off + 24) = file.wrtDate := by
    rw [getU16_congr fun k _ hk => h3 k (by omega)]
    exact getU16_writeU16 _ _ (by omega)
  have hclus : getU16 (putDirEntry b off file) (off + 26) = file.fstClus := by
    rw [getU16_congr fun k _ hk => h4 k (by omega)]
    exact getU16_writeU16 _ _ (by omega)
  have hsize : getU32 (putDirEntry b off file) (off + 28) = file.fileSize := by
    rw [hput]
    exact getU32_writeU32 _ _ (by omega)
  rw [entryAt, hname, hattr, htime, hdate, hclus, hsize, File.entry]

/-- The offsets of the entries are multiples of 32 inside the sector. -/
theorem mem_dirEntryOffsets {off : Nat} : off ∈ dirEntryOffsets ↔ ∃ i < 16, off = i * 32 := by
  simp [dirEntryOffsets, bytePerDirEntry, eq_comm]

/-! ## A small volume

One file in the root directory, with one cluster; for the examples of later modules. -/

/-- An unused node. -/
def blankFile : File where
  filename := Bytes.zero 11
  attr := 0
  reserved := Bytes.zero 10
  wrtTime := 0
  wrtDate := 0
  fstClus := 0
  fileSize := 0
  fa := none
  fstSon := none
  nextSib := none
  used := false

/-- A freshly booted system with the given disk and tree. -/
def bootedFs (sdb : Disk) (fstSon : Option FileRef) (filelist : Fin 100 → File) : Fs where
  sda := fun _ => Bytes.zero 512
  sdb := sdb
  rootfile := { blankFile with used := true, fstSon := fstSon }
  filelist := filelist
  activeCnt := 0
  activelist := fun _ =>
    { file := none, refCnt := 0, type := .readOnly, head := none, buffsize := 0, used := false }
  afblNodelist := fun _ => { buff := Bytes.zero 512, next := none, used := false }
  console := []

/-- A FAT sector with the entries `0xFF0` and `0xFFF`, then the bytes `x` and `y`. -/
def fatHead (x y : UInt8) : Sector := Bytes.ofFn fun i =>
  if i = 0 then 0xF0 else if i ≤ 2 then 0xFF else if i = 3 then x else if i = 4 then y else 0

/-- A volume with this first FAT sector, with `root` as the first sector of the root
directory and `data` in cluster 2. -/
def smallVolume (fat root data : Sector) : Disk := fun sec =>
  if sec = 1 ∨ sec = 10 then fat else if sec = 19 then root else if sec = 33 then data
  else Bytes.zero 512

theorem smallVolume_mirrored (fat root data : Sector) :
    FatMirrored (smallVolume fat root data) := by
  intro k h1 h9
  by_cases hk : k = 1
  · subst hk
    rfl
  · have h0 : ¬ (k = 1 ∨ k = 10) := by omega
    have h0' : ¬ (k + 9 = 1 ∨ k + 9 = 10) := by omega
    rw [smallVolume, smallVolume, if_neg h0, if_neg h0', if_neg (by omega), if_neg (by omega),
      if_neg (by omega), if_neg (by omega)]

/-- From cluster 4 on, the FAT is empty. -/
theorem smallVolume_fat (x y : UInt8) (root data : Sector) {c : Nat} (h4 : 4 ≤ c)
    (hmax : c ≤ 2848) : getFatNextCluster (smallVolume (fatHead x y) root data) c = 0 := by
  have hbyte : ∀ k, 5 ≤ k → k < 4608 →
      fatByte (smallVolume (fatHead x y) root data) k = 0 := by
    intro k hk5 hk
    rw [fatByte, smallVolume]
    by_cases hfirst : k < 512
    · rw [if_pos (by omega), fatHead, Bytes.get_ofFn _ (by omega), if_neg (by omega),
        if_neg (by omega), if_neg (by omega), if_neg (by omega)]
    · rw [if_neg (by omega), if_neg (by omega), if_neg (by omega), Bytes.get_zero]
  have hpos : 5 ≤ fatPos c ∧ fatPos c + 1 < 4608 := by
    unfold fatPos
    omega
  rw [getFat_eq _ (by omega), hbyte _ hpos.1 (by omega), hbyte _ (by omega) hpos.2]
  split <;> rfl

/-- The name `EEEEEEEE.EEE`. -/
def sampleName : Name := Bytes.ofFn fun _ => 0x45

/-- The node of the file. -/
def oneFile : File :=
  { blankFile with
    used := true, filename := sampleName, attr := 0x20, fstClus := 2, fa := some .rootfile }

/-- The volume with this file, as the system boots from it. -/
def oneFileFs : Fs :=
  bootedFs (smallVolume (fatHead 0xFF 0x0F) (putDirEntry (Bytes.zero 512) 0 oneFile)
    (Bytes.zero 512)) (some (.slot 0)) fun i => if i = 0 then oneFile else blankFile

theorem oneFileFs_mounted : Mounted oneFileFs (.cons 0 .nil .nil) fun _ => [2] := by
  have hlive : ∀ i, Live oneFileFs (.cons 0 .nil .nil) i → i = 0 := fun i hi =>
    List.mem_singleton.mp hi.1
  refine ⟨⟨⟨rfl, rfl, rfl, rfl, rfl⟩, by decide⟩, by decide, by decide, ?_, ?_⟩
  · intro i hi
    obtain rfl := hlive i hi
    have hend : IsEnd (getFatNextCluster oneFileFs.sdb 2) := by decide
    exact ⟨⟨rfl, by decide, hend⟩, by decide, by decide⟩
  · intro i j hi hj hij
    exact absurd ((hlive i hi).trans (hlive j hj).symm) hij

end GwOS
