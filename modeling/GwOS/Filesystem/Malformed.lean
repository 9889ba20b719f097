import GwOS.Filesystem.Agreement

/-!
# Mounting whatever is on the disk

`build_tree` trusts the disk: it follows the FAT to an end mark, enters every subdirectory, and
uses the node that `make_file_from_sector` returns without a test for `NULL`. `Checked` is the
same code with every access checked, for any number of steps. How much of the machine's stack the
nested calls take is not part of it.

- `Refines` and `buildSlots_refines`: the loop over the entries, with one recursive call replaced
  by another.
- `Safe d n c`: the directories below the first cluster `c`, to the depth `n`, have walks that end
  and stay on the disk. The checked run finds this out (`Checked.buildTree_safe`), and where it
  holds the checked run is the unchecked one (`Checked.buildTree_real`).
- `mount_survives_iff`: the disks that can be mounted.
-/

namespace GwOS

/-! ## The checked accesses -/

namespace Checked

/-- `read_sector` of a sector that the disk has. -/
def readSector (d : Disk) (secID : Nat) : Except Fault Sector :=
  if secID < secCnt then GwOS.readSector d secID else .error .outOfBounds

/-- `get_fat_next_cluster`, with its two indexes into `img`. -/
def getFatNextCluster (d : Disk) (clusID : Nat) : Except Fault Nat :=
  if 512 + (clusID / 2 * 3 + clusID % 2) + 1 < 512 * 20 then
    .ok (GwOS.getFatNextCluster d clusID)
  else .error .outOfBounds

/-- The `while` loop of `build_tree`. -/
def buildSectors (recur : Fs → FileRef → Nat → Except Fault (Option FileRef × Fs)) (fa : FileRef) :
    Nat → Nat → Nat → Option FileRef → Option FileRef → Fs →
      Except Fault (Option FileRef × Fs)
  | 0, _, _, _, _, _ => .error .outOfFuel
  | m + 1, clusID, secID, head, now, s =>
    if clusID = 0 ∧ secID = 33 then .ok (head, s)
    else if clusID ≠ 0 ∧ isEndMark clusID then .ok (head, s)
    else do
      let buff ← readSector s.sdb secID
      let (head, now, s) ← buildEntries recur fa buff dirEntryOffsets head now s
      if clusID = 0 then buildSectors recur fa m clusID (u16 (secID + 1)) head now s
      else do
        let clusID ← getFatNextCluster s.sdb clusID
        buildSectors recur fa m clusID (u16 (clusID + clusToSec)) head now s

/-- `build_tree`, with at most `m` rounds of each loop and `n` calls inside each other. -/
def buildTree (m : Nat) : Nat → Fs → FileRef → Nat → Except Fault (Option FileRef × Fs)
  | 0, _, _, _ => .error .outOfFuel
  | n + 1, s, fa, clusID =>
    let secID := if clusID = 0 then 19 else u16 (clusID + clusToSec)
    buildSectors (buildTree m n) fa m clusID secID none none s

/-- `filesystem_init`. -/
def filesystemInit (m n : Nat) (s : Fs) : Except Fault Fs := do
  let (son, s) ← buildTree m n (fileInit s) .rootfile 0
  pure (s.setFile .rootfile { s.rootfile with fstSon := son })

end Checked

/-- `build_all_tree` ends, and no access fails on the way. -/
def MountSurvives (s : Fs) : Prop := ∃ m n s', Checked.filesystemInit m n s = .ok s'

/-! ## The condition -/

/-- The walk over the directory with the first cluster `c` ends and stays on the disk. -/
structure WalkOnDisk (d : Disk) (c : Nat) (secs : List Nat) : Prop where
  walk : ∃ e, DirWalk d e c (if c = 0 then 19 else u16 (c + clusToSec)) secs
  sectors : ∀ x ∈ secs, x < secCnt
  first : secs ≠ [] → c < 4096

/-- The forest holds what the subdirectories of the disk hold, and their walks are on the disk. -/
def DirsOnDisk (d : Disk) : Forest Entry → Prop
  | .nil => True
  | .cons e kids sibs =>
    (if e.IsSubdir then
      ∃ secs, WalkOnDisk d e.fstClus.toNat secs ∧ kids.tops = dirEntries d secs
      else kids = .nil) ∧ DirsOnDisk d kids ∧ DirsOnDisk d sibs

/-- The directories form a finite tree of at most 100 entries, on the disk. -/
def Mountable (d : Disk) : Prop :=
  ∃ t : Forest Entry, t.tops = dirEntries d rootSectors ∧ DirsOnDisk d t ∧ t.size ≤ 100

/-- The directories below the first cluster `c`, to the depth `n`, are on the disk. -/
def Safe (d : Disk) : Nat → Nat → Prop
  | 0, _ => False
  | n + 1, c => ∃ secs, WalkOnDisk d c secs ∧
    ∀ e ∈ dirEntries d secs, e.IsSubdir → Safe d n e.fstClus.toNat

/-! ## A walk on the disk is short -/

section Walks

variable {d : Disk}

/-- The positions of the walks: in the root directory, or at a cluster. -/
def WalkPos (p : Nat × Nat) : Prop :=
  (p.1 = 0 ∧ p.2 ≤ 33) ∨ (p.1 < 4096 ∧ p.2 = p.1 + 31)

theorem WalkPos.next {p : Nat × Nat} (h : WalkPos p) (hstop : ¬ DirStop p.1 p.2) :
    WalkPos (dirNext d p.1 p.2) := by
  obtain ⟨c, sec⟩ := p
  by_cases hc : c = 0
  · subst hc
    have hsec : sec ≤ 32 := by
      rcases h with ⟨-, hle⟩ | ⟨-, heq⟩
      · have hne : sec ≠ 33 := fun he => hstop (.inl ⟨rfl, he⟩)
        have : sec ≤ 33 := hle
        omega
      · have : sec = 31 := heq
        omega
    refine .inl ⟨by rw [dirNext, if_pos rfl], ?_⟩
    rw [dirNext, if_pos rfl]
    show u16 (sec + 1) ≤ 33
    unfold u16
    omega
  · have hlt : c < 4096 := h.elim (fun h0 => absurd h0.1 hc) And.left
    have hnext := getFat_lt d hlt
    refine .inr ⟨by rw [dirNext, if_neg hc]; exact hnext, ?_⟩
    rw [dirNext, if_neg hc]
    show u16 (getFatNextCluster d c + clusToSec) = getFatNextCluster d c + 31
    unfold u16 clusToSec
    omega

/-- The positions that a walk visits. -/
theorem DirWalk.positions {secs : List Nat} {e c sec : Nat} (h : DirWalk d e c sec secs)
    (hpos : WalkPos (c, sec)) : ∃ P : List (Nat × Nat), P.map Prod.snd = secs ∧ (∀ p ∈ P, WalkPos p) ∧
      Chain.Visits (fun p => dirNext d p.1 p.2) (fun p => DirStop p.1 p.2) (c, sec) P := by
  induction secs generalizing c sec with
  | nil => exact ⟨[], rfl, fun _ hp => absurd hp List.not_mem_nil, h.1⟩
  | cons x secs ih =>
    obtain ⟨hstop, rfl, -, hrest⟩ := h
    obtain ⟨P, hP, hall, hv⟩ := ih hrest (hpos.next hstop)
    refine ⟨(c, sec) :: P, by rw [List.map_cons, hP], ?_, rfl, hstop, hv⟩
    intro p hp
    rcases List.mem_cons.mp hp with rfl | hp
    · exact hpos
    · exact hall p hp

theorem WalkOnDisk.length_lt {c : Nat} {secs : List Nat} (h : WalkOnDisk d c secs) :
    secs.length < walkFuel := by
  obtain ⟨⟨e, hw⟩, hsec, hfirst⟩ := h
  cases secs with
  | nil => exact (by decide : 0 < walkFuel)
  | cons x secs =>
    have hc := hfirst (List.cons_ne_nil _ _)
    have hpos : WalkPos (c, if c = 0 then 19 else u16 (c + clusToSec)) := by
      by_cases h0 : c = 0
      · exact .inl ⟨h0, by rw [if_pos h0]; exact (by decide : 19 ≤ 33)⟩
      · refine .inr ⟨hc, ?_⟩
        rw [if_neg h0]
        show u16 (c + clusToSec) = c + 31
        unfold u16 clusToSec
        omega
    obtain ⟨P, hP, hall, hv⟩ := hw.positions hpos
    -- a position is a sector of the root or the sector of a cluster, and none comes twice
    have hsub : P.toFinset ⊆ (Finset.range 34).image (fun x => (0, x)) ∪
        (Finset.range 2849).image (fun c => (c, c + 31)) := by
      intro p hp
      have hp := List.mem_toFinset.mp hp
      have hlt := hsec p.2 (hP ▸ List.mem_map_of_mem hp)
      unfold secCnt at hlt
      rw [Finset.mem_union, Finset.mem_image, Finset.mem_image]
      rcases hall p hp with ⟨h0, hle⟩ | ⟨-, heq⟩
      · exact .inl ⟨p.2, Finset.mem_range.mpr (by omega), Prod.ext h0.symm rfl⟩
      · exact .inr ⟨p.1, Finset.mem_range.mpr (by omega), Prod.ext rfl heq.symm⟩
    have hcard := Finset.card_le_card hsub
    rw [List.toFinset_card_of_nodup hv.nodup] at hcard
    have hunion := Finset.card_union_le ((Finset.range 34).image fun x => (0, x))
      ((Finset.range 2849).image fun c => (c, c + 31))
    have hroot := Finset.card_image_le (s := Finset.range 34) (f := fun x : Nat => (0, x))
    have hclus := Finset.card_image_le (s := Finset.range 2849) (f := fun c : Nat => (c, c + 31))
    rw [Finset.card_range] at hroot hclus
    rw [← hP, List.length_map]
    unfold walkFuel
    omega

theorem WalkOnDisk.dirSecs {c : Nat} {secs : List Nat} (h : WalkOnDisk d c secs) :
    DirSecs d c secs := ⟨h.length_lt, h.walk⟩

theorem WalkOnDisk.root (d : Disk) : WalkOnDisk d 0 rootSectors := by
  refine ⟨⟨0, dirWalk_root d⟩, fun x hx => ?_, fun _ => by decide⟩
  have := List.mem_range'_1.mp hx
  unfold secCnt
  omega

end Walks

/-! ## One recursive call instead of another -/

section Loops

variable {recur recur' : Fs → FileRef → Nat → Except Fault (Option FileRef × Fs)} {fa : FileRef}
  {d : Disk} {P Q : Nat → Prop}

theorem linkLast_entry (s : Fs) (head now : Option FileRef) (node q : FileRef) :
    ((linkLast s head now node).2.file q).entry = (s.file q).entry := by
  cases now with
  | none => rfl
  | some last =>
    show ((s.setFile last { s.file last with nextSib := some node }).file q).entry = _
    by_cases hq : q = last
    · subst hq
      rw [Fs.file_setFile_self]
      rfl
    · rw [Fs.file_setFile_ne _ _ hq]

/-- The body of the loop, for every recursive call alike: no slot is free, or a node has been
placed, and a subdirectory is entered. -/
theorem buildEntry_cases (fa : FileRef) (buff : Sector) (i : Nat) (head now : Option FileRef)
    (s : Fs) :
    (∀ recur, buildEntry recur fa buff i head now s = .error .nullDeref) ∨
    ∃ j head' s2, s2.sdb = s.sdb ∧ ∀ recur, buildEntry recur fa buff i head now s =
      if (entryAt buff i).IsSubdir then
        recur s2 (.slot j) (entryAt buff i).fstClus.toNat >>= fun r =>
          .ok (head', some (.slot j),
            r.2.setFile (.slot j) { r.2.file (.slot j) with fstSon := r.1 })
      else .ok (head', some (.slot j), s2) := by
  cases hi : emptySlot s with
  | none =>
    -- `make_file_from_sector` returns `NULL`, and nobody tests it
    refine .inl fun recur => ?_
    simp only [buildEntry, makeFileFromSector, getEmptyFile, hi]
  | some j =>
    have hmake : makeFileFromSector s fa buff i = (some (.slot j),
        s.setFile (.slot j) (decodeFile (initNewFile (s.filelist j)) fa buff i)) := by
      simp only [makeFileFromSector, getEmptyFile, hi, Fs.file_setFile_self]
      simp [Fs.setFile]
    generalize hs1 : s.setFile (.slot j) (decodeFile (initNewFile (s.filelist j)) fa buff i) = s1
      at hmake
    have hentry : ((linkLast s1 head now (.slot j)).2.file (.slot j)).entry = entryAt buff i := by
      rw [linkLast_entry, ← hs1, Fs.file_setFile_self]
      rfl
    have hsdb : (linkLast s1 head now (.slot j)).2.sdb = s.sdb := by
      rw [linkLast_sdb, ← hs1]
      exact Fs.sdb_setFile ..
    refine .inr ⟨j, (linkLast s1 head now (.slot j)).1, (linkLast s1 head now (.slot j)).2, hsdb,
      fun recur => ?_⟩
    have hattr : ((linkLast s1 head now (.slot j)).2.file (.slot j)).attr =
        (entryAt buff i).attr := congrArg Entry.attr hentry
    have hname : ((linkLast s1 head now (.slot j)).2.file (.slot j)).filename =
        (entryAt buff i).filename := congrArg Entry.filename hentry
    have hclus : ((linkLast s1 head now (.slot j)).2.file (.slot j)).fstClus =
        (entryAt buff i).fstClus := congrArg Entry.fstClus hentry
    simp only [buildEntry, hmake, hattr, hname, hclus]
    rfl

/-- On the clusters in `P` of the disk `d`, what the first recursive call returns the second
returns as well, and `Q` holds. -/
def Refines (d : Disk) (P : Nat → Prop)
    (recur recur' : Fs → FileRef → Nat → Except Fault (Option FileRef × Fs))
    (Q : Nat → Prop) : Prop :=
  ∀ ⦃s fa c r⦄, s.sdb = d → P c → recur s fa c = .ok r →
    recur' s fa c = .ok r ∧ r.2.sdb = d ∧ Q c

theorem buildEntry_refines (h : Refines d P recur recur' Q) {buff : Sector} {i : Nat}
    {head now : Option FileRef} {s : Fs} {r : Option FileRef × Option FileRef × Fs}
    (hs : s.sdb = d) (hP : (entryAt buff i).IsSubdir → P (entryAt buff i).fstClus.toNat)
    (hrun : buildEntry recur fa buff i head now s = .ok r) :
    buildEntry recur' fa buff i head now s = .ok r ∧ r.2.2.sdb = d ∧
      ((entryAt buff i).IsSubdir → Q (entryAt buff i).fstClus.toNat) := by
  rcases buildEntry_cases fa buff i head now s with hnone | ⟨j, head', s2, hsdb, heq⟩
  · rw [hnone] at hrun
    cases hrun
  rw [heq] at hrun ⊢
  by_cases hsub : (entryAt buff i).IsSubdir
  · rw [if_pos hsub] at hrun ⊢
    obtain ⟨x, hx, hok⟩ := bind_eq_ok.mp hrun
    obtain ⟨hx', hxd, hQ⟩ := h (hsdb.trans hs) (hP hsub) hx
    cases hok
    exact ⟨bind_eq_ok.mpr ⟨x, hx', rfl⟩, (Fs.sdb_setFile ..).trans hxd, fun _ => hQ⟩
  · rw [if_neg hsub] at hrun ⊢
    cases hrun
    exact ⟨rfl, hsdb.trans hs, fun he => absurd he hsub⟩

theorem buildSlots_refines (h : Refines d P recur recur' Q) {l : List (Sector × Nat)}
    {head now : Option FileRef} {s : Fs} {r : Option FileRef × Option FileRef × Fs} (hs : s.sdb = d)
    (hP : ∀ p ∈ l, (entryAt p.1 p.2).IsSubdir → P (entryAt p.1 p.2).fstClus.toNat)
    (hrun : buildSlots recur fa l head now s = .ok r) :
    buildSlots recur' fa l head now s = .ok r ∧ r.2.2.sdb = d ∧
      ∀ p ∈ l, (entryAt p.1 p.2).IsSubdir → Q (entryAt p.1 p.2).fstClus.toNat := by
  induction l generalizing head now s with
  | nil =>
    cases hrun
    exact ⟨rfl, hs, fun p hp => absurd hp List.not_mem_nil⟩
  | cons slot l ih =>
    obtain ⟨buff, i⟩ := slot
    obtain ⟨r1, h1, h2⟩ := bind_eq_ok.mp hrun
    obtain ⟨h1', hd1, hQ1⟩ := buildEntry_refines h hs (hP (buff, i) List.mem_cons_self) h1
    obtain ⟨h2', hd2, hQ2⟩ := ih hd1 (fun p hp => hP p (List.mem_cons_of_mem _ hp)) h2
    refine ⟨bind_eq_ok.mpr ⟨r1, h1', h2'⟩, hd2, fun p hp => ?_⟩
    rcases List.mem_cons.mp hp with rfl | hp
    · exact hQ1
    · exact hQ2 p hp

/-! ## The checked loop over the sectors -/

/-- The check of the indexes into `img`, at a cluster whose sector is on the disk. -/
theorem checkedNext_ok {c : Nat} (hc : c < 4096) :
    Checked.getFatNextCluster d c = .ok (getFatNextCluster d c) := if_pos (by omega)

theorem checkedNext_lt {c n : Nat} (hsec : u16 (c + clusToSec) < secCnt)
    (h : Checked.getFatNextCluster d c = .ok n) : c < 4096 ∧ n = getFatNextCluster d c := by
  unfold Checked.getFatNextCluster at h
  split at h
  · next hlt =>
    refine ⟨?_, (Except.ok.inj h).symm⟩
    unfold u16 clusToSec secCnt at hsec
    omega
  · cases h

/-- One round of the loop, at a position on the disk. -/
theorem checkedSectors_step (hr : KeepsDisk recur) {m c sec : Nat}
    {head now : Option FileRef} {s : Fs} (hstop : ¬ DirStop c sec) (hsec : sec < secCnt) :
    Checked.buildSectors recur fa (m + 1) c sec head now s =
      (buildSlots recur fa ((usedOffsets (s.sdb sec)).map fun off => (s.sdb sec, off)) head now s
        >>= fun r => if c = 0 then
            Checked.buildSectors recur fa m c (u16 (sec + 1)) r.1 r.2.1 r.2.2
          else Checked.getFatNextCluster s.sdb c >>= fun c' =>
            Checked.buildSectors recur fa m c' (u16 (c' + clusToSec)) r.1 r.2.1 r.2.2) := by
  have h1 : ¬ (c = 0 ∧ sec = 33) := fun h => hstop (.inl h)
  have h2 : ¬ (c ≠ 0 ∧ isEndMark c) := fun h => hstop (.inr ⟨h.1, isEndMark_iff.mp h.2⟩)
  have hread : Checked.readSector s.sdb sec = .ok (s.sdb sec) := by
    rw [Checked.readSector, if_pos hsec, readSector_ok _ hsec.le]
  rw [Checked.buildSectors, if_neg h1, if_neg h2, hread]
  simp only [bind, Except.bind, buildEntries_eq, ← usedOffsets.eq_1]
  cases hb : buildSlots recur fa ((usedOffsets (s.sdb sec)).map fun off => (s.sdb sec, off)) head
      now s with
  | error e => rfl
  | ok r =>
    have hsdb := buildSlots_sdb hr hb
    obtain ⟨head', now', s'⟩ := r
    simp only at hsdb ⊢
    rw [hsdb]

theorem checkedSectors_stop {m c sec : Nat} {head now : Option FileRef} {s : Fs}
    (hstop : DirStop c sec) :
    Checked.buildSectors recur fa (m + 1) c sec head now s = .ok (head, s) := by
  rw [Checked.buildSectors]
  by_cases h : c = 0 ∧ sec = 33
  · rw [if_pos h]
  · rw [if_neg h, if_pos]
    exact (hstop.resolve_left h).imp id isEndMark_iff.mpr

/-- Along a walk on the disk the two loops are one. -/
theorem checkedSectors_eq (hr : KeepsDisk recur) {d : Disk} {e : Nat} {secs : List Nat} {m c sec : Nat}
    {head now : Option FileRef} {s : Fs} (hs : s.sdb = d) (hw : DirWalk d e c sec secs)
    (hsec : ∀ x ∈ secs, x < secCnt) (hfirst : secs ≠ [] → c < 4096) (hn : secs.length < m) :
    Checked.buildSectors recur fa m c sec head now s =
      (buildSlots recur fa (usedSlots d secs) head now s >>= fun r => .ok (r.1, r.2.2)) := by
  induction secs generalizing m c sec head now s with
  | nil =>
    obtain ⟨m, rfl⟩ : ∃ k, m = k + 1 := ⟨m - 1, by rw [List.length_nil] at hn; omega⟩
    exact checkedSectors_stop hw.1
  | cons x secs ih =>
    obtain ⟨m, rfl⟩ : ∃ k, m = k + 1 := ⟨m - 1, by omega⟩
    obtain ⟨hstop, rfl, -, hrest⟩ := hw
    subst hs
    have hc := hfirst (List.cons_ne_nil _ _)
    have hsec' : ∀ x ∈ secs, x < secCnt := fun x hx => hsec x (List.mem_cons_of_mem _ hx)
    have hn' : secs.length < m := Nat.lt_of_succ_lt_succ hn
    rw [checkedSectors_step hr hstop (hsec _ List.mem_cons_self), usedSlots, List.flatMap_cons,
      buildSlots_append]
    cases hb : buildSlots recur fa ((usedOffsets (s.sdb sec)).map fun off => (s.sdb sec, off)) head
        now s with
    | error e => rfl
    | ok r =>
      have hkeep := buildSlots_sdb hr hb
      simp only [bind, Except.bind]
      by_cases h0 : c = 0
      · rw [dirNext, if_pos h0] at hrest
        rw [if_pos h0]
        exact ih hkeep hrest hsec' (fun _ => hc) hn'
      · rw [dirNext, if_neg h0] at hrest
        rw [if_neg h0, checkedNext_ok hc]
        exact ih hkeep hrest hsec' (fun _ => getFat_lt _ hc) hn'

/-- When the checked loop ends, it has made a walk on the disk. -/
theorem checkedSectors_walk (hr : KeepsDisk recur) {m c sec : Nat} {head now : Option FileRef}
    {s : Fs} {r : Option FileRef × Fs} (hs : s.sdb = d) (hpos : c = 0 ∨ sec = u16 (c + clusToSec))
    (h : Checked.buildSectors recur fa m c sec head now s = .ok r) :
    ∃ e secs, DirWalk d e c sec secs ∧ (∀ x ∈ secs, x < secCnt) ∧ (secs ≠ [] → c < 4096) ∧
      secs.length < m := by
  induction m generalizing c sec head now s with
  | zero => cases h
  | succ m ih =>
    by_cases hstop : DirStop c sec
    · exact ⟨c, [], ⟨hstop, rfl⟩, fun x hx => absurd hx List.not_mem_nil,
        fun hne => absurd rfl hne, Nat.succ_pos m⟩
    · have hsec : sec < secCnt := by
        by_contra hge
        have h1 : ¬ (c = 0 ∧ sec = 33) := fun h => hstop (.inl h)
        have h2 : ¬ (c ≠ 0 ∧ isEndMark c) := fun h => hstop (.inr ⟨h.1, isEndMark_iff.mp h.2⟩)
        rw [Checked.buildSectors, if_neg h1, if_neg h2, Checked.readSector, if_neg hge] at h
        cases h
      rw [checkedSectors_step hr hstop hsec] at h
      obtain ⟨r1, hb, hrest⟩ := bind_eq_ok.mp h
      have hkeep := (buildSlots_sdb hr hb).trans hs
      have hcons : ∀ {secs : List Nat}, (∀ x ∈ secs, x < secCnt) →
          ∀ x ∈ sec :: secs, x < secCnt := by
        intro secs hsecs x hx
        rcases List.mem_cons.mp hx with rfl | hx
        · exact hsec
        · exact hsecs x hx
      -- in the root the next sector follows, elsewhere the FAT has the next cluster
      by_cases h0 : c = 0
      · rw [if_pos h0] at hrest
        obtain ⟨e, secs, hw, hsecs, -, hlen⟩ := ih hkeep (.inl h0) hrest
        refine ⟨e, sec :: secs, ⟨hstop, rfl, hsec.le, ?_⟩, hcons hsecs, fun _ => by omega,
          Nat.succ_lt_succ hlen⟩
        rw [dirNext, if_pos h0]
        exact hw
      · rw [if_neg h0] at hrest
        obtain ⟨c', hnext, hrest⟩ := bind_eq_ok.mp hrest
        obtain ⟨hlt, rfl⟩ := checkedNext_lt (hpos.resolve_left h0 ▸ hsec) hnext
        rw [hs] at hrest
        obtain ⟨e, secs, hw, hsecs, -, hlen⟩ := ih hkeep (.inr rfl) hrest
        refine ⟨e, sec :: secs, ⟨hstop, rfl, hsec.le, ?_⟩, hcons hsecs, fun _ => hlt,
          Nat.succ_lt_succ hlen⟩
        rw [dirNext, if_neg h0]
        exact hw

end Loops

/-! ## The checked run and the real one -/

theorem mem_usedSlots_entry {d : Disk} {secs : List Nat} {p : Sector × Nat}
    (h : p ∈ usedSlots d secs) : entryAt p.1 p.2 ∈ dirEntries d secs := List.mem_map_of_mem h

/-- What the checked run returns the real one returns, and the directories are on the disk. -/
theorem checkedTree_refines (m n : Nat) (d : Disk) :
    Refines d (fun _ => True) (Checked.buildTree m n) (buildTree n) (Safe d n) := by
  induction n generalizing d with
  | zero =>
    intro _ _ _ _ _ _ h
    cases h
  | succ n ih =>
    intro s fa c r hs _ h
    have hkeep : KeepsDisk (Checked.buildTree m n) := fun s _ _ _ _ h => (ih s.sdb rfl trivial h).2.1
    rw [Checked.buildTree] at h
    obtain ⟨e, secs, hw, hsecs, hfirst, hlen⟩ := checkedSectors_walk hkeep hs
      (by by_cases hc : c = 0
          · exact .inl hc
          · exact .inr (if_neg hc)) h
    rw [checkedSectors_eq hkeep hs hw hsecs hfirst hlen] at h
    obtain ⟨r1, hslots, hok⟩ := bind_eq_ok.mp h
    cases hok
    have hwalk : WalkOnDisk d c secs := ⟨⟨e, hw⟩, hsecs, hfirst⟩
    obtain ⟨hreal, hd, hsafe⟩ := buildSlots_refines (ih d) hs (fun _ _ _ => trivial) hslots
    refine ⟨?_, hd, secs, hwalk, fun x hx => ?_⟩
    · rw [buildTree, buildSectors_eq (buildTree_reads n).keepsDisk hs hw hwalk.length_lt]
      exact bind_eq_ok.mpr ⟨r1, hreal, rfl⟩
    · obtain ⟨p, hp, rfl⟩ := List.mem_map.mp hx
      exact hsafe p hp

theorem checkedTree_keepsDisk (m n : Nat) : KeepsDisk (Checked.buildTree m n) :=
  fun s _ _ _ _ h => (checkedTree_refines m n s.sdb rfl trivial h).2.1

/-- Where the directories are on the disk, the checked run returns what the real one does. -/
theorem realTree_refines (n : Nat) (d : Disk) :
    Refines d (Safe d n) (buildTree n) (Checked.buildTree walkFuel n) (fun _ => True) := by
  induction n generalizing d with
  | zero =>
    intro _ _ _ _ _ _ h
    cases h
  | succ n ih =>
    intro s fa c r hs hsafe h
    obtain ⟨secs, hwalk, hall⟩ := hsafe
    have hlen := hwalk.length_lt
    obtain ⟨⟨e, hw⟩, hsecs, hfirst⟩ := hwalk
    rw [buildTree, buildSectors_eq (buildTree_reads n).keepsDisk hs hw hlen] at h
    obtain ⟨r1, hslots, hok⟩ := bind_eq_ok.mp h
    cases hok
    obtain ⟨hchecked, hd, -⟩ := buildSlots_refines (ih d) hs
      (fun p hp => hall _ (mem_usedSlots_entry hp)) hslots
    refine ⟨?_, hd, trivial⟩
    rw [Checked.buildTree, checkedSectors_eq (checkedTree_keepsDisk _ n) hs hw hsecs hfirst hlen]
    exact bind_eq_ok.mpr ⟨r1, hchecked, rfl⟩

/-! ## The finite tree -/

section Finite

variable {d : Disk}

theorem DirsOnDisk.decodes {t : Forest Entry} (h : DirsOnDisk d t) : Decodes d t := by
  induction t with
  | nil => trivial
  | cons e kids sibs ihKids ihSibs =>
    obtain ⟨he, hk, hs⟩ := h
    refine ⟨?_, ihKids hk, ihSibs hs⟩
    by_cases hsub : e.IsSubdir
    · rw [if_pos hsub] at he ⊢
      obtain ⟨secs, hwalk, htops⟩ := he
      exact ⟨secs, hwalk.dirSecs, htops⟩
    · rw [if_neg hsub] at he ⊢
      exact he

/-- A subdirectory on the first level, with what is below it. -/
theorem DirsOnDisk.subdir {t : Forest Entry} (h : DirsOnDisk d t) {e : Entry} (he : e ∈ t.tops)
    (hsub : e.IsSubdir) : ∃ kids secs, WalkOnDisk d e.fstClus.toNat secs ∧
      kids.tops = dirEntries d secs ∧ DirsOnDisk d kids ∧ kids.size < t.size := by
  induction t with
  | nil => exact absurd he List.not_mem_nil
  | cons a kids sibs _ ihSibs =>
    obtain ⟨ha, hk, hs⟩ := h
    rw [Forest.size]
    rcases List.mem_cons.mp he with rfl | he
    · rw [if_pos hsub] at ha
      obtain ⟨secs, hwalk, htops⟩ := ha
      exact ⟨kids, secs, hwalk, htops, hk, by omega⟩
    · obtain ⟨kids', secs, hwalk, htops, hk', hlt⟩ := ihSibs hs he
      exact ⟨kids', secs, hwalk, htops, hk', by omega⟩

/-- A finite tree on the disk can be entered to any depth above its size. -/
theorem DirsOnDisk.safe {n : Nat} {t : Forest Entry} {c : Nat} {secs : List Nat} (h : DirsOnDisk d t)
    (hwalk : WalkOnDisk d c secs) (htops : t.tops = dirEntries d secs) (hn : t.size < n) :
    Safe d n c := by
  induction n generalizing t c secs with
  | zero => exact absurd hn (Nat.not_lt_zero _)
  | succ n ih =>
    refine ⟨secs, hwalk, fun e he hsub => ?_⟩
    rw [← htops] at he
    obtain ⟨kids, secs', hwalk', htops', hk, hlt⟩ := h.subdir he hsub
    exact ih hk hwalk' htops' (by omega)

/-- What has been read from directories on the disk is a finite tree on the disk. -/
theorem Decodes.dirsOnDisk {t : Forest Entry} {n : Nat} (h : Decodes d t)
    (hsafe : ∀ e ∈ t.tops, e.IsSubdir → Safe d n e.fstClus.toNat) : DirsOnDisk d t := by
  induction t generalizing n with
  | nil => trivial
  | cons e kids sibs ihKids ihSibs =>
    obtain ⟨he, hk, hs⟩ := h
    have hsibs := ihSibs hs fun x hx => hsafe x (List.mem_cons_of_mem _ hx)
    by_cases hsub : e.IsSubdir
    · rw [if_pos hsub] at he
      obtain ⟨secs, hsecs, htops⟩ := he
      have hsafe' := hsafe e List.mem_cons_self hsub
      cases n with
      | zero => exact hsafe'.elim
      | succ n =>
        obtain ⟨secs', hwalk, hall⟩ := hsafe'
        obtain rfl := hsecs.unique hwalk.dirSecs
        refine ⟨?_, ihKids hk fun x hx => hall x (htops ▸ hx), hsibs⟩
        rw [if_pos hsub]
        exact ⟨secs, hwalk, htops⟩
    · rw [if_neg hsub] at he
      refine ⟨by rw [if_neg hsub]; exact he, ?_, hsibs⟩
      rw [he]
      trivial

end Finite

/-! ## The disks that can be mounted -/

/-- When the checked run ends, the directories are on the disk. -/
theorem MountSurvives.safe {s : Fs} (h : MountSurvives s) :
    ∃ n, Safe s.sdb n 0 ∧ ∃ t, ReadsBack s.sdb t ∧ t.size ≤ 100 := by
  obtain ⟨m, n, s', h⟩ := h
  obtain ⟨⟨son, s1⟩, hrun, -⟩ := bind_eq_ok.mp h
  obtain ⟨hreal, -, hsafe⟩ :=
    checkedTree_refines m n s.sdb (rfl : (fileInit s).sdb = s.sdb) trivial hrun
  obtain ⟨F, secs, hF, hsecs, htops⟩ := buildTree_reads _ hreal
  rw [hsecs.unique (DirSecs.root _)] at htops
  refine ⟨n, hsafe, viewTree s1 F, ⟨htops, hF.decodes⟩, ?_⟩
  rw [viewTree, Forest.size_map, ← Forest.labels_length]
  have hle := hF.nodup.length_le_card
  rwa [Fintype.card_fin] at hle

/-- **Mounting any disk.** `build_all_tree` ends, and no access fails on the way, exactly when the
directories form a finite tree of at most 100 entries, on the disk. -/
theorem mount_survives_iff (s : Fs) : MountSurvives s ↔ Mountable s.sdb := by
  constructor
  · intro h
    obtain ⟨n, hsafe, t, ⟨htops, hdec⟩, hsize⟩ := h.safe
    refine ⟨t, htops, ?_, hsize⟩
    cases n with
    | zero => exact hsafe.elim
    | succ n =>
      obtain ⟨secs, hwalk, hall⟩ := hsafe
      have hroot := hwalk.dirSecs.unique (DirSecs.root _)
      refine hdec.dirsOnDisk (n := n) fun e he => hall e ?_
      rw [hroot, ← htops]
      exact he
  · rintro ⟨t, htops, hdirs, hsize⟩
    have hsafe : Safe s.sdb 101 0 := hdirs.safe (WalkOnDisk.root _) htops (by omega)
    have hfree : (freeSlots (fileInit s)).card = 100 := card_freeSlots_fileInit s
    obtain ⟨r, hreal⟩ := @buildTree_total 101 (fileInit s) .rootfile _ _ _
      (DirSecs.root _) hdirs.decodes htops (by omega) (by omega)
    obtain ⟨hchecked, -⟩ :=
      realTree_refines 101 s.sdb (rfl : (fileInit s).sdb = s.sdb) hsafe hreal
    refine ⟨walkFuel, 101, r.2.setFile .rootfile { r.2.rootfile with fstSon := r.1 }, ?_⟩
    rw [Checked.filesystemInit, hchecked]
    rfl

/-- The entry of a subdirectory in cluster 0, which is the root directory again. -/
def rootLoop : File := { blankFile with filename := sampleName, attr := 0x10 }

def rootLoopFs : Fs :=
  bootedFs (smallVolume (fatHead 0xFF 0x0F) (putDirEntry (Bytes.zero 512) 0 rootLoop)
    (Bytes.zero 512)) none fun _ => blankFile

theorem rootLoopFs_entry :
    ∃ e ∈ dirEntries rootLoopFs.sdb rootSectors, e.IsSubdir ∧ e.fstClus = 0 := by
  have hoff : 0 ∈ usedOffsets (rootLoopFs.sdb 19) := by decide
  have hused : (rootLoopFs.sdb 19, 0) ∈ usedSlots rootLoopFs.sdb rootSectors :=
    List.mem_flatMap.mpr ⟨19, by decide, List.mem_map_of_mem hoff⟩
  exact ⟨entryAt (rootLoopFs.sdb 19) 0, mem_usedSlots_entry hused, by decide, by decide⟩

/-- The root directory that contains itself cannot be mounted. -/
theorem mount_fails_rootLoop : ¬ MountSurvives rootLoopFs := by
  intro h
  obtain ⟨n, hsafe, -⟩ := h.safe
  obtain ⟨e, he, hsub, hclus⟩ := rootLoopFs_entry
  -- every level leads to the next one
  have hnever : ∀ n, ¬ Safe rootLoopFs.sdb n 0 := by
    intro n
    induction n with
    | zero => exact id
    | succ n ih =>
      rintro ⟨secs, hwalk, hall⟩
      rw [hwalk.dirSecs.unique (DirSecs.root _)] at hall
      have hnext := hall e he hsub
      rw [hclus] at hnext
      exact ih hnext
  exact hnever n hsafe

end GwOS
