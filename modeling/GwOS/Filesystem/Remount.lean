import GwOS.Filesystem.Create

/-!
# Reading the tree back from the disk

`build_all_tree` as a decoder. `Decodes d t` says that the forest of entries `t`
is what the directories of the disk `d` describe: the children of every
subdirectory are the used entries of its sectors, in order. The recursive walk
and this relation are connected in both directions:

- `buildTree_reads`: whatever `build_tree` builds, the disk describes;
- `buildTree_total`: what the disk describes is built, when the table has enough
  free slots.

`Decodes` is deterministic (`Decodes.unique`), so together they compute the result
of a remount (`filesystemInit_ok`).
-/

namespace GwOS

/-! ## What a disk describes -/

/-- `build_tree` descends into this entry. -/
def Entry.IsSubdir (e : Entry) : Prop := e.attr = 0x10 ∧ e.filename.get 0 ≠ 0x2E

instance (e : Entry) : Decidable e.IsSubdir := by
  unfold Entry.IsSubdir
  infer_instance

/-- The used entries of a sector, in order. -/
def usedOffsets (b : Sector) : List Nat := dirEntryOffsets.filter fun off => !slotFree b off

/-- The used entries of a list of sectors, as sector and offset. -/
def usedSlots (d : Disk) (secs : List Nat) : List (Sector × Nat) :=
  secs.flatMap fun x => (usedOffsets (d x)).map fun off => (d x, off)

/-- The decoded entries of a list of sectors. -/
def dirEntries (d : Disk) (secs : List Nat) : List Entry :=
  (usedSlots d secs).map fun p => entryAt p.1 p.2

/-- The sectors that `build_tree` reads for the first cluster `c`; `0` is the root. -/
def DirSecs (d : Disk) (c : Nat) (secs : List Nat) : Prop :=
  secs.length < walkFuel ∧ ∃ e, DirWalk d e c (if c = 0 then 19 else u16 (c + clusToSec)) secs

/-- Below every node, the forest is what the disk describes. -/
def Decodes (d : Disk) : Forest Entry → Prop
  | .nil => True
  | .cons e kids sibs =>
    (if e.IsSubdir then ∃ secs, DirSecs d e.fstClus.toNat secs ∧ kids.tops = dirEntries d secs
      else kids = .nil) ∧ Decodes d kids ∧ Decodes d sibs

theorem DirWalk.unique {d : Disk} : ∀ {secs secs' : List Nat} {e e' c sec : Nat},
    DirWalk d e c sec secs → DirWalk d e' c sec secs' → secs = secs'
  | [], [], _, _, _, _, _, _ => rfl
  | [], _ :: _, _, _, _, _, h, h' => absurd h.1 h'.1
  | _ :: _, [], _, _, _, _, h, h' => absurd h'.1 h.1
  | x :: secs, y :: secs', _, _, _, _, h, h' => by
    obtain ⟨-, rfl, -, hw⟩ := h
    obtain ⟨-, rfl, -, hw'⟩ := h'
    rw [DirWalk.unique hw hw']

theorem DirSecs.unique {d : Disk} {c : Nat} {secs secs' : List Nat} (h : DirSecs d c secs)
    (h' : DirSecs d c secs') : secs = secs' := by
  obtain ⟨-, e, hw⟩ := h
  obtain ⟨-, e', hw'⟩ := h'
  exact hw.unique hw'

theorem DirSecs.root (d : Disk) : DirSecs d 0 rootSectors := ⟨by decide, 0, dirWalk_root d⟩

theorem DirSecs.chain {d : Disk} {c : Nat} {K : List Nat} (h : FileChain d c K) :
    DirSecs d c (K.map (· + 31)) := by
  have hc : c ≠ 0 := by
    obtain ⟨k, K', rfl⟩ := List.exists_cons_of_ne_nil h.nonempty
    have hk := (h.range k (List.mem_cons_self ..)).1
    obtain ⟨rfl, -⟩ := h.visits
    omega
  obtain ⟨e, -, hw⟩ := dirWalk_chain h.visits h.range
  refine ⟨?_, e, ?_⟩
  · rw [List.length_map]
    exact lt_trans h.length_lt (by decide)
  · rw [if_neg hc]
    exact hw

/-- The disk determines the forest below the first level. -/
theorem Decodes.unique {d : Disk} : ∀ {t t' : Forest Entry}, Decodes d t → Decodes d t' →
    t.tops = t'.tops → t = t'
  | .nil, .nil, _, _, _ => rfl
  | .nil, .cons _ _ _, _, _, h => by cases h
  | .cons _ _ _, .nil, _, _, h => by cases h
  | .cons e kids sibs, .cons e' kids' sibs', h, h', ht => by
    obtain ⟨rfl, hsibs⟩ := List.cons.inj ht
    obtain ⟨hk, hkd, hsd⟩ := h
    obtain ⟨hk', hkd', hsd'⟩ := h'
    have hkids : kids = kids' := by
      by_cases he : e.IsSubdir
      · rw [if_pos he] at hk hk'
        obtain ⟨secs, hs, hks⟩ := hk
        obtain ⟨secs', hs', hks'⟩ := hk'
        refine Decodes.unique hkd hkd' ?_
        rw [hks, hks', hs.unique hs']
      · rw [if_neg he] at hk hk'
        rw [hk, hk']
    rw [hkids, Decodes.unique hsd hsd' hsibs]

theorem decodes_append {d : Disk} : ∀ {t t' : Forest Entry},
    Decodes d (t.append t') ↔ Decodes d t ∧ Decodes d t'
  | .nil, _ => ⟨fun h => ⟨trivial, h⟩, And.right⟩
  | .cons e kids sibs, t' => by
    show (_ ∧ Decodes d kids ∧ Decodes d (sibs.append t')) ↔
      (_ ∧ Decodes d kids ∧ Decodes d sibs) ∧ Decodes d t'
    rw [decodes_append, and_assoc, and_assoc]

/-! ## The loops of `build_tree` as one loop over the used entries -/

section Loops

variable {recur : Fs → FileRef → Nat → Except Fault (Option FileRef × Fs)} {fa : FileRef}

/-- The two loops of `build_tree`, over the used entries of all sectors. -/
def buildSlots (recur : Fs → FileRef → Nat → Except Fault (Option FileRef × Fs)) (fa : FileRef) :
    List (Sector × Nat) → Option FileRef → Option FileRef → Fs →
      Except Fault (Option FileRef × Option FileRef × Fs)
  | [], head, now, s => .ok (head, now, s)
  | (buff, i) :: rest, head, now, s =>
    buildEntry recur fa buff i head now s >>= fun r => buildSlots recur fa rest r.1 r.2.1 r.2.2

theorem buildSlots_append : ∀ (l l' : List (Sector × Nat)) (head now : Option FileRef) (s : Fs),
    buildSlots recur fa (l ++ l') head now s =
      (buildSlots recur fa l head now s >>= fun r => buildSlots recur fa l' r.1 r.2.1 r.2.2)
  | [], _, _, _, _ => rfl
  | (buff, i) :: l, l', head, now, s => by
    rw [List.cons_append, buildSlots, buildSlots]
    cases buildEntry recur fa buff i head now s with
    | error e => rfl
    | ok r => exact buildSlots_append l l' _ _ _

theorem buildEntries_eq (buff : Sector) : ∀ (offs : List Nat) (head now : Option FileRef) (s : Fs),
    buildEntries recur fa buff offs head now s =
      buildSlots recur fa ((offs.filter fun off => !slotFree buff off).map fun off => (buff, off))
        head now s
  | [], _, _, _ => rfl
  | i :: rest, head, now, s => by
    rw [buildEntries]
    by_cases hi : buff.get i = 0xE5 ∨ buff.get i = 0
    · have hf : ¬ (!slotFree buff i) = true := by
        rcases hi with hi | hi <;> simp [slotFree, hi]
      rw [if_pos hi, List.filter_cons_of_neg (p := fun off => !slotFree buff off) hf, buildEntries_eq buff rest]
    · have hf : (!slotFree buff i) = true := by
        rw [not_or] at hi
        simp [slotFree, hi.1, hi.2]
      rw [if_neg hi, List.filter_cons_of_pos (p := fun off => !slotFree buff off) hf, List.map_cons, buildSlots]
      cases buildEntry recur fa buff i head now s with
      | error e => rfl
      | ok r => exact buildEntries_eq buff rest _ _ _

/-- The recursive call leaves the disk alone. -/
def KeepsDisk (recur : Fs → FileRef → Nat → Except Fault (Option FileRef × Fs)) : Prop :=
  ∀ ⦃s fa c p s'⦄, recur s fa c = .ok (p, s') → s'.sdb = s.sdb

theorem makeFileFromSector_sdb (s : Fs) (buff : Sector) (i : Nat) :
    (makeFileFromSector s fa buff i).2.sdb = s.sdb := by
  unfold makeFileFromSector getEmptyFile
  cases emptySlot s <;> rfl

theorem linkLast_sdb (s : Fs) (head now : Option FileRef) (node : FileRef) :
    (linkLast s head now node).2.sdb = s.sdb := by
  cases now with
  | none => rfl
  | some last => exact Fs.sdb_setFile ..

theorem buildEntry_sdb (hr : KeepsDisk recur) {buff : Sector} {i : Nat}
    {head now : Option FileRef} {s : Fs} {r : Option FileRef × Option FileRef × Fs}
    (h : buildEntry recur fa buff i head now s = .ok r) : r.2.2.sdb = s.sdb := by
  have hmake : (makeFileFromSector s fa buff i).2.sdb = s.sdb := makeFileFromSector_sdb s buff i
  unfold buildEntry at h
  generalize makeFileFromSector s fa buff i = m at h hmake
  obtain ⟨node, s1⟩ := m
  cases node with
  | none => cases h
  | some node =>
    have hlink := linkLast_sdb s1 head now node
    generalize hl : linkLast s1 head now node = l at hlink
    simp only [hl] at h
    split at h
    · obtain ⟨⟨son, s2⟩, hrec, he⟩ := bind_eq_ok.mp h
      cases he
      exact (Fs.sdb_setFile ..).trans ((hr hrec).trans (hlink.trans hmake))
    · cases h
      exact hlink.trans hmake

theorem buildSlots_sdb (hr : KeepsDisk recur) : ∀ {l : List (Sector × Nat)}
    {head now : Option FileRef} {s : Fs} {r : Option FileRef × Option FileRef × Fs},
    buildSlots recur fa l head now s = .ok r → r.2.2.sdb = s.sdb
  | [], _, _, _, _, h => by
    cases h
    rfl
  | (buff, i) :: l, head, now, s, r, h => by
    obtain ⟨r1, h1, h2⟩ := bind_eq_ok.mp h
    rw [buildSlots_sdb hr h2, buildEntry_sdb hr h1]

/-- One round of the loop over the sectors. -/
theorem buildSectors_step {n c sec : Nat} {head now : Option FileRef} {s : Fs}
    (hr : KeepsDisk recur) (hstop : ¬ DirStop c sec) (hsec : sec ≤ secCnt) :
    buildSectors recur fa (n + 1) c sec head now s =
      (buildSlots recur fa ((usedOffsets (s.sdb sec)).map fun off => (s.sdb sec, off)) head now s
        >>= fun r => buildSectors recur fa n (dirNext s.sdb c sec).1 (dirNext s.sdb c sec).2
          r.1 r.2.1 r.2.2) := by
  have h1 : ¬ (c = 0 ∧ sec = 33) := fun h => hstop (.inl h)
  have h2 : ¬ (c ≠ 0 ∧ isEndMark c) := fun h => hstop (.inr ⟨h.1, isEndMark_iff.mp h.2⟩)
  rw [buildSectors, if_neg h1, if_neg h2, readSector_ok _ hsec]
  simp only [bind, Except.bind, buildEntries_eq, ← usedOffsets.eq_1]
  cases hb : buildSlots recur fa ((usedOffsets (s.sdb sec)).map fun off => (s.sdb sec, off)) head
      now s with
  | error e => rfl
  | ok r =>
    have hsdb := buildSlots_sdb hr hb
    obtain ⟨head', now', s'⟩ := r
    simp only at hsdb ⊢
    by_cases hc : c = 0
    · subst hc
      rw [if_pos rfl, dirNext, if_pos rfl]
    · rw [if_neg hc, dirNext, if_neg hc, hsdb]

theorem buildSectors_stop {n c sec : Nat} {head now : Option FileRef} {s : Fs}
    (hstop : DirStop c sec) : buildSectors recur fa (n + 1) c sec head now s = .ok (head, s) := by
  rw [buildSectors]
  by_cases h : c = 0 ∧ sec = 33
  · rw [if_pos h]
  · rw [if_neg h, if_pos]
    exact (hstop.resolve_left h).imp id isEndMark_iff.mpr

/-- Along a walk the two loops are one. -/
theorem buildSectors_eq (hr : KeepsDisk recur) {d : Disk} {e : Nat} : ∀ {secs : List Nat}
    {n c sec : Nat} {head now : Option FileRef} {s : Fs}, s.sdb = d → DirWalk d e c sec secs →
    secs.length < n → buildSectors recur fa n c sec head now s =
      (buildSlots recur fa (usedSlots d secs) head now s >>= fun r => .ok (r.1, r.2.2))
  | _, 0, _, _, _, _, _, _, _, hn => absurd hn (Nat.not_lt_zero _)
  | [], n + 1, _, _, _, _, _, _, hw, _ => buildSectors_stop hw.1
  | x :: secs, n + 1, c, sec, head, now, s, hs, hw, hn => by
    obtain ⟨hstop, rfl, hsec, hrest⟩ := hw
    subst hs
    rw [buildSectors_step hr hstop hsec, usedSlots, List.flatMap_cons, buildSlots_append]
    cases hb : buildSlots recur fa ((usedOffsets (s.sdb sec)).map fun off => (s.sdb sec, off)) head
        now s with
    | error e => rfl
    | ok r => exact buildSectors_eq hr (buildSlots_sdb hr hb) hrest (Nat.lt_of_succ_lt_succ hn)

/-- When the loop over the sectors ends, it has made a walk. -/
theorem buildSectors_walk (hr : KeepsDisk recur) {d : Disk} : ∀ {n c sec : Nat}
    {head now : Option FileRef} {s : Fs} {r : Option FileRef × Fs}, s.sdb = d →
    buildSectors recur fa n c sec head now s = .ok r →
    ∃ e secs, DirWalk d e c sec secs ∧ secs.length < n
  | 0, _, _, _, _, _, _, _, h => by cases h
  | n + 1, c, sec, head, now, s, r, hs, h => by
    by_cases hstop : DirStop c sec
    · exact ⟨c, [], ⟨hstop, rfl⟩, Nat.succ_pos n⟩
    · have hsec : sec ≤ secCnt := by
        by_contra hgt
        have h1 : ¬ (c = 0 ∧ sec = 33) := fun h => hstop (.inl h)
        have h2 : ¬ (c ≠ 0 ∧ isEndMark c) := fun h => hstop (.inr ⟨h.1, isEndMark_iff.mp h.2⟩)
        rw [buildSectors, if_neg h1, if_neg h2, readSector, if_neg hgt] at h
        cases h
      rw [buildSectors_step hr hstop hsec] at h
      obtain ⟨r1, hb, hrest⟩ := bind_eq_ok.mp h
      obtain ⟨e, secs, hw, hlen⟩ := buildSectors_walk hr ((buildSlots_sdb hr hb).trans hs) hrest
      rw [hs] at hw
      exact ⟨e, sec :: secs, ⟨hstop, rfl, hsec, hw⟩, Nat.succ_lt_succ hlen⟩

end Loops

/-! ## What `build_tree` builds -/

/-- The nodes of the tree as directory entries. -/
def viewTree (s : Fs) (f : Forest (Fin 100)) : Forest Entry := f.map fun i => (s.filelist i).entry

theorem viewTree_congr {s s' : Fs} {f : Forest (Fin 100)}
    (h : ∀ i ∈ f.labels, (s'.filelist i).entry = (s.filelist i).entry) :
    viewTree s' f = viewTree s f := Forest.map_congr h

theorem viewTree_append (s : Fs) : ∀ f g : Forest (Fin 100),
    viewTree s (f.append g) = (viewTree s f).append (viewTree s g)
  | .nil, _ => rfl
  | .cons _ _ sibs, g => congrArg (Forest.cons _ _) (viewTree_append s sibs g)

/-- `s'` is `s` with the forest `F` built from fresh slots below `fa`, as the disk describes
it. -/
structure Built (s s' : Fs) (fa : FileRef) (p : Option FileRef) (F : Forest (Fin 100)) : Prop where
  linked : Linked s'.filelist fa p F
  nodup : F.labels.Nodup
  fresh : ∀ x ∈ F.labels, (s.filelist x).used = false
  frame : ∀ x, x ∉ F.labels → s'.filelist x = s.filelist x
  rest : s' = { s with filelist := s'.filelist }
  decodes : Decodes s.sdb (viewTree s' F)

theorem Built.nil (s : Fs) (fa : FileRef) : Built s s fa none .nil :=
  ⟨rfl, List.nodup_nil, fun _ h => absurd h List.not_mem_nil, fun _ _ => rfl, rfl, trivial⟩

/-- Every node of the forest took one slot. -/
theorem Built.card {s s' : Fs} {fa : FileRef} {p : Option FileRef} {F : Forest (Fin 100)}
    (h : Built s s' fa p F) : (freeSlots s).card = (freeSlots s').card + F.size := by
  have hset : freeSlots s = freeSlots s' ∪ F.labels.toFinset := by
    ext x
    rw [Finset.mem_union, mem_freeSlots, mem_freeSlots, List.mem_toFinset]
    by_cases hx : x ∈ F.labels
    · exact ⟨fun _ => .inr hx, fun _ => h.fresh x hx⟩
    · rw [h.frame x hx]
      exact ⟨.inl, fun ho => ho.resolve_right hx⟩
  have hdis : Disjoint (freeSlots s') F.labels.toFinset := by
    refine Finset.disjoint_left.mpr fun x hx hxF => ?_
    have hused := h.linked.used x (List.mem_toFinset.mp hxF)
    rw [mem_freeSlots.mp hx] at hused
    cases hused
  rw [hset, Finset.card_union_of_disjoint hdis, List.toFinset_card_of_nodup h.nodup,
    Forest.labels_length]

/-- The last node of the first level. -/
def lastRef (F : Forest (Fin 100)) : Option FileRef := F.tops.getLast?.map FileRef.slot

/-- A node with its children is linked behind the last one. -/
theorem Linked.append_node {fl fl' : Fin 100 → File} {i : Fin 100} {G : Forest (Fin 100)}
    (hu : (fl' i).used = true) (hsib : (fl' i).nextSib = none)
    (hG : Linked fl' (.slot i) (fl' i).fstSon G) : ∀ {F : Forest (Fin 100)} {fa : FileRef}
    {p : Option FileRef}, Linked fl fa p F → F.labels.Nodup → (fl' i).fa = some fa →
    (∀ x ∈ F.labels, lastRef F ≠ some (.slot x) → SameLinks (fl' x) (fl x)) →
    (∀ x, lastRef F = some (.slot x) → fl' x = { fl x with nextSib := some (.slot i) }) →
    Linked fl' fa (if F = .nil then some (.slot i) else p) (F.append (.cons i G .nil))
  | .nil, _, _, _, _, hfa, _, _ => by
    rw [if_pos rfl]
    exact ⟨rfl, hu, hfa, hG, hsib⟩
  | .cons a kids sibs, fa, p, h, hn, hfa, hsame, hlast => by
    obtain ⟨hp, hua, hfaa, hk, hs⟩ := h
    obtain ⟨hak, has, hkn, hsn, hd⟩ := Forest.nodup_cons_iff.mp hn
    -- the last node of the first level is not below `a`
    have hkids : Linked fl' (.slot a) (fl a).fstSon kids := by
      refine hk.congr fun x hx => hsame x (List.mem_cons_of_mem _ (List.mem_append_left _ hx)) ?_
      intro hl
      rw [lastRef, Option.map_eq_some_iff] at hl
      obtain ⟨y, hy, hyx⟩ := hl
      cases hyx
      rcases List.mem_cons.mp (List.mem_of_getLast? hy) with rfl | hm
      · exact hak hx
      · exact hd hx (Forest.tops_subset_labels hm)
    rw [if_neg (Forest.cons_ne_nil _ _ _)]
    cases sibs with
    | nil =>
      have ha := hlast a rfl
      refine ⟨hp, ?_, ?_, ?_, ?_, hu, hfa, hG, hsib⟩
      · rw [ha]
        exact hua
      · rw [ha]
        exact hfaa
      · rw [ha]
        exact hkids
      · rw [ha]
    | cons b k2 s2 =>
      have hl : lastRef (.cons a kids (.cons b k2 s2)) = lastRef (.cons b k2 s2) := by
        simp [lastRef, Forest.tops]
      have ha : SameLinks (fl' a) (fl a) := by
        refine hsame a (List.mem_cons_self ..) fun hla => has ?_
        rw [hl, lastRef, Option.map_eq_some_iff] at hla
        obtain ⟨y, hy, hya⟩ := hla
        cases hya
        exact Forest.tops_subset_labels (List.mem_of_getLast? hy)
      have htail := Linked.append_node hu hsib hG hs hsn hfa
        (fun x hx hx' => hsame x (List.mem_cons_of_mem _ (List.mem_append_right _ hx))
          (by rw [hl]; exact hx')) (fun x hx => hlast x (by rw [hl]; exact hx))
      rw [if_neg (Forest.cons_ne_nil _ _ _)] at htail
      refine ⟨hp, ?_, ?_, ?_, ?_⟩
      · rw [ha.used]
        exact hua
      · rw [ha.fa]
        exact hfaa
      · rw [ha.fstSon]
        exact hkids
      · rw [ha.nextSib]
        exact htail

/-- The slot `i` holds the entry at `off`, and follows the last node of `F`. -/
structure Placed (s s' : Fs) (fa : FileRef) (buff : Sector) (off : Nat) (F : Forest (Fin 100))
    (i : Fin 100) : Prop where
  unused : (s.filelist i).used = false
  self : s'.filelist i = decodeFile (initNewFile (s.filelist i)) fa buff off
  last : ∀ x, lastRef F = some (.slot x) →
    s'.filelist x = { s.filelist x with nextSib := some (.slot i) }
  other : ∀ x, x ≠ i → lastRef F ≠ some (.slot x) → s'.filelist x = s.filelist x
  rest : s' = { s with filelist := s'.filelist }

theorem lastRef_cases (F : Forest (Fin 100)) :
    (F = .nil ∧ lastRef F = none) ∨ (F ≠ .nil ∧ ∃ x ∈ F.labels, lastRef F = some (.slot x)) := by
  cases F with
  | nil => exact .inl ⟨rfl, rfl⟩
  | cons a kids sibs =>
    refine .inr ⟨Forest.cons_ne_nil _ _ _, ?_⟩
    obtain ⟨x, hx⟩ := Option.isSome_iff_exists.mp
      (List.getLast?_isSome.mpr (List.cons_ne_nil a sibs.tops))
    refine ⟨x, Forest.tops_subset_labels (List.mem_of_getLast? hx), ?_⟩
    show ((a :: sibs.tops).getLast?).map FileRef.slot = _
    rw [hx]
    rfl

theorem lastRef_mem {F : Forest (Fin 100)} {x : Fin 100} (h : lastRef F = some (.slot x)) :
    x ∈ F.labels := by
  rcases lastRef_cases F with ⟨-, hnone⟩ | ⟨-, y, hy, hly⟩
  · rw [hnone] at h
    cases h
  · rw [hly] at h
    cases h
    exact hy

section Step

variable {recur : Fs → FileRef → Nat → Except Fault (Option FileRef × Fs)} {fa : FileRef}
  {s : Fs} {F : Forest (Fin 100)} {head : Option FileRef}

variable (head) in
/-- Placing the entry, before the recursive call. -/
theorem linkLast_placed (hF : ∀ x ∈ F.labels, (s.filelist x).used = true) {i : Fin 100}
    (hi : (s.filelist i).used = false) (buff : Sector) (off : Nat) :
    ∃ s2, linkLast (s.setFile (.slot i) (decodeFile (initNewFile (s.filelist i)) fa buff off)) head
        (lastRef F) (.slot i) = (if F = .nil then some (.slot i) else head, s2) ∧
      Placed s s2 fa buff off F i := by
  rcases lastRef_cases F with ⟨hnil, hlast⟩ | ⟨hne, l, hl, hlast⟩
  · rw [hlast, if_pos hnil]
    refine ⟨_, rfl, hi, ?_, ?_, fun x hx _ => ?_, rfl⟩
    · exact Function.update_self ..
    · intro x hx
      rw [hlast] at hx
      cases hx
    · exact Function.update_of_ne hx ..
  · have hli : l ≠ i := by
      rintro rfl
      rw [hF l hl] at hi
      cases hi
    rw [hlast, if_neg hne]
    refine ⟨_, rfl, hi, ?_, ?_, ?_, rfl⟩
    · show Function.update (Function.update s.filelist i _) l _ i = _
      rw [Function.update_of_ne hli.symm, Function.update_self]
    · intro x hx
      rw [hlast] at hx
      cases hx
      show Function.update (Function.update s.filelist i _) l
        { Function.update s.filelist i _ l with nextSib := some (.slot i) } l = _
      rw [Function.update_self, Function.update_of_ne hli]
    · intro x hxi hx
      have hxl : x ≠ l := fun he => hx (by rw [hlast, he])
      show Function.update (Function.update s.filelist i _) l _ x = _
      rw [Function.update_of_ne hxl, Function.update_of_ne hxi]

variable (fa) in
/-- The body of the loop: the node is placed, then a subdirectory gets its children. -/
theorem buildEntry_eq (hF : ∀ x ∈ F.labels, (s.filelist x).used = true) {i : Fin 100}
    (hi : emptySlot s = some i) (buff : Sector) (off : Nat) :
    ∃ s2, Placed s s2 fa buff off F i ∧ buildEntry recur fa buff off head (lastRef F) s =
      if (entryAt buff off).IsSubdir then
        recur s2 (.slot i) (entryAt buff off).fstClus.toNat >>= fun r =>
          .ok (if F = .nil then some (.slot i) else head, some (.slot i),
            r.2.setFile (.slot i) { r.2.filelist i with fstSon := r.1 })
      else .ok (if F = .nil then some (.slot i) else head, some (.slot i), s2) := by
  have hu : (s.filelist i).used = false := by simpa using List.find?_some hi
  have hmake : makeFileFromSector s fa buff off = (some (.slot i),
      s.setFile (.slot i) (decodeFile (initNewFile (s.filelist i)) fa buff off)) := by
    simp only [makeFileFromSector, getEmptyFile, hi, Fs.file_setFile_self]
    simp [Fs.setFile]
  obtain ⟨s2, hlink, hp⟩ := linkLast_placed head hF hu buff off
  refine ⟨s2, hp, ?_⟩
  have hself : s2.file (.slot i) = decodeFile (initNewFile (s.filelist i)) fa buff off := hp.self
  rw [buildEntry, hmake]
  simp only [hlink, hself]
  rfl

/-- After a node with its children has been placed, the list is one node longer. -/
theorem Built.place {s0 s2 u : Fs} {buff : Sector} {off : Nat} {i : Fin 100}
    {G : Forest (Fin 100)} {son : Option FileRef} (hb : Built s0 s fa head F)
    (hp : Placed s s2 fa buff off F i)
    (hself : u.filelist i = { s2.filelist i with fstSon := son })
    (hG : Linked u.filelist (.slot i) son G) (hGn : G.labels.Nodup)
    (hGf : ∀ x ∈ G.labels, (s2.filelist x).used = false)
    (hframe : ∀ x, x ∉ G.labels → x ≠ i → u.filelist x = s2.filelist x)
    (hrest : u = { s2 with filelist := u.filelist })
    (hkids : Decodes s0.sdb (.cons (entryAt buff off) (viewTree u G) .nil)) :
    Built s0 u fa (if F = .nil then some (.slot i) else head) (F.append (.cons i G .nil)) ∧
      viewTree u (F.append (.cons i G .nil)) =
        (viewTree s F).append (.cons (entryAt buff off) (viewTree u G) .nil) := by
  have hused := hb.linked.used
  have hiF : i ∉ F.labels := fun hi => by
    have := hused i hi
    rw [hp.unused] at this
    cases this
  -- the nodes of `F` are still in use after the placement
  have hFs2 : ∀ x ∈ F.labels, (s2.filelist x).used = true := by
    intro x hx
    by_cases hl : lastRef F = some (.slot x)
    · rw [hp.last x hl]
      exact hused x hx
    · rw [hp.other x (fun he => hiF (he ▸ hx)) hl]
      exact hused x hx
  have hFG : ∀ x ∈ F.labels, x ∉ G.labels := by
    intro x hx hxG
    have := hFs2 x hx
    rw [hGf x hxG] at this
    cases this
  have hiG : i ∉ G.labels := by
    intro hi
    have := hGf i hi
    rw [hp.self] at this
    cases this
  have hFi : ∀ x ∈ F.labels, x ≠ i := fun x hx he => hiF (he ▸ hx)
  have hF' : ∀ x ∈ F.labels, u.filelist x = s2.filelist x := fun x hx =>
    hframe x (hFG x hx) (hFi x hx)
  have hlabels : (F.append (.cons i G .nil)).labels = F.labels ++ i :: G.labels := by
    rw [Forest.labels_append, Forest.labels, Forest.labels, List.append_nil]
  have hentry : (u.filelist i).entry = entryAt buff off := by
    rw [hself, hp.self]
    rfl
  have hview : viewTree u F = viewTree s F := by
    refine viewTree_congr fun x hx => ?_
    rw [hF' x hx]
    by_cases hl : lastRef F = some (.slot x)
    · rw [hp.last x hl]
      rfl
    · rw [hp.other x (hFi x hx) hl]
  have hall : viewTree u (F.append (.cons i G .nil)) =
      (viewTree s F).append (.cons (entryAt buff off) (viewTree u G) .nil) := by
    rw [viewTree_append, hview, ← hentry]
    rfl
  refine ⟨⟨?_, ?_, ?_, ?_, ?_, ?_⟩, hall⟩
  · refine Linked.append_node ?_ ?_ ?_ hb.linked hb.nodup ?_ ?_ ?_
    · rw [hself, hp.self]
      rfl
    · rw [hself, hp.self]
      rfl
    · rw [hself]
      exact hG
    · rw [hself, hp.self]
      rfl
    · intro x hx hl
      rw [hF' x hx, hp.other x (hFi x hx) hl]
      exact SameLinks.refl _
    · intro x hl
      rw [hF' x (lastRef_mem hl), hp.last x hl]
  · rw [hlabels, List.nodup_append']
    refine ⟨hb.nodup, List.nodup_cons.mpr ⟨hiG, hGn⟩, fun x hx hx' => ?_⟩
    rcases List.mem_cons.mp hx' with rfl | hx'
    · exact hiF hx
    · exact hFG x hx hx'
  · intro x hx
    rw [hlabels, List.mem_append, List.mem_cons] at hx
    by_cases hxF : x ∈ F.labels
    · exact hb.fresh x hxF
    · rw [← hb.frame x hxF]
      rcases hx.resolve_left hxF with rfl | hxG
      · exact hp.unused
      · have hxi : x ≠ i := fun he => hiG (he ▸ hxG)
        rw [← hp.other x hxi fun hl => hxF (lastRef_mem hl)]
        exact hGf x hxG
  · intro x hx
    rw [hlabels, List.mem_append, List.mem_cons, not_or, not_or] at hx
    obtain ⟨hxF, hxi, hxG⟩ := hx
    rw [hframe x hxG hxi, hp.other x hxi fun hl => hxF (lastRef_mem hl), hb.frame x hxF]
  · rw [hrest, hp.rest, hb.rest]
  · rw [hall, decodes_append]
    exact ⟨hb.decodes, hkids⟩

/-- What a recursive call builds, the disk describes. -/
def Reads (recur : Fs → FileRef → Nat → Except Fault (Option FileRef × Fs)) : Prop :=
  ∀ ⦃s fa c p s'⦄, recur s fa c = .ok (p, s') → ∃ F secs, Built s s' fa p F ∧
    DirSecs s.sdb c secs ∧ (viewTree s' F).tops = dirEntries s.sdb secs

theorem Reads.keepsDisk (hr : Reads recur) : KeepsDisk recur := by
  intro s fa c p s' h
  obtain ⟨F, secs, hb, -⟩ := hr h
  rw [hb.rest]

/-- One entry, with its children. -/
theorem buildEntry_reads (hr : Reads recur) {s0 : Fs} {buff : Sector} {off : Nat}
    {r : Option FileRef × Option FileRef × Fs} (hb : Built s0 s fa head F)
    (h : buildEntry recur fa buff off head (lastRef F) s = .ok r) :
    ∃ i G, Built s0 r.2.2 fa r.1 (F.append (.cons i G .nil)) ∧ r.2.1 = some (.slot i) ∧
      viewTree r.2.2 (F.append (.cons i G .nil)) =
        (viewTree s F).append (.cons (entryAt buff off) (viewTree r.2.2 G) .nil) := by
  cases hi : emptySlot s with
  | none =>
    have hmake : makeFileFromSector s fa buff off = (none, s) := by
      simp only [makeFileFromSector, getEmptyFile, hi]
    rw [buildEntry, hmake] at h
    cases h
  | some i =>
    obtain ⟨s2, hp, he⟩ := buildEntry_eq fa
      (fun x hx => hb.linked.used x hx) hi buff off
    have hsdb : s2.sdb = s0.sdb := by rw [hp.rest, hb.rest]
    rw [he] at h
    by_cases hsub : (entryAt buff off).IsSubdir
    · rw [if_pos hsub] at h
      obtain ⟨⟨son, s3⟩, hrec, hres⟩ := bind_eq_ok.mp h
      cases hres
      obtain ⟨G, secs, hG, hsecs, htops⟩ := hr hrec
      have hiG : i ∉ G.labels := by
        intro hiG
        have := hG.fresh i hiG
        rw [hp.self] at this
        cases this
      have hG' : ∀ x ∈ G.labels, Function.update s3.filelist i
          { s3.filelist i with fstSon := son } x = s3.filelist x := fun x hx =>
        Function.update_of_ne (fun he : x = i => hiG (he ▸ hx)) ..
      have hview : viewTree (s3.setFile (.slot i) { s3.filelist i with fstSon := son }) G =
          viewTree s3 G := viewTree_congr fun x hx => congrArg File.entry (hG' x hx)
      obtain ⟨hb', hview'⟩ := hb.place (u := s3.setFile (.slot i)
          { s3.filelist i with fstSon := son }) (G := G) hp
        (by rw [Fs.filelist_setFile_slot, Function.update_self, hG.frame i hiG])
        (hG.linked.congr fun x hx => by
          rw [Fs.filelist_setFile_slot, hG' x hx]
          exact SameLinks.refl _)
        hG.nodup hG.fresh
        (fun x hxG hxi => by
          rw [Fs.filelist_setFile_slot, Function.update_of_ne hxi, hG.frame x hxG])
        (by rw [hG.rest]; rfl)
        (by
          rw [hview]
          refine ⟨?_, hsdb ▸ hG.decodes, trivial⟩
          rw [if_pos hsub]
          exact ⟨secs, hsdb ▸ hsecs, hsdb ▸ htops⟩)
      exact ⟨i, G, hb', rfl, hview'⟩
    · rw [if_neg hsub] at h
      cases h
      obtain ⟨hb', hview'⟩ := hb.place (G := .nil) hp
        (by rw [hp.self]; rfl) rfl List.nodup_nil (fun x hx => absurd hx List.not_mem_nil)
        (fun _ _ _ => rfl) rfl ⟨by rw [if_neg hsub]; rfl, trivial, trivial⟩
      exact ⟨i, .nil, hb', rfl, hview'⟩

theorem lastRef_append_node (F : Forest (Fin 100)) (i : Fin 100) (G : Forest (Fin 100)) :
    lastRef (F.append (.cons i G .nil)) = some (.slot i) := by
  rw [lastRef, Forest.tops_append]
  simp [Forest.tops]

/-- The used entries, one after the other. -/
theorem buildSlots_reads (hr : Reads recur) {s0 : Fs} : ∀ {l : List (Sector × Nat)} {s : Fs}
    {head : Option FileRef} {F : Forest (Fin 100)} {r : Option FileRef × Option FileRef × Fs},
    Built s0 s fa head F → buildSlots recur fa l head (lastRef F) s = .ok r →
    ∃ F', Built s0 r.2.2 fa r.1 F' ∧
      (viewTree r.2.2 F').tops = (viewTree s F).tops ++ l.map fun p => entryAt p.1 p.2
  | [], s, head, F, r, hb, h => by
    cases h
    exact ⟨F, hb, (List.append_nil _).symm⟩
  | (buff, off) :: l, s, head, F, r, hb, h => by
    obtain ⟨r1, h1, h2⟩ := bind_eq_ok.mp h
    obtain ⟨i, G, hb1, hlast, hview⟩ := buildEntry_reads hr hb h1
    rw [hlast, ← lastRef_append_node F i G] at h2
    obtain ⟨F', hb', htops⟩ := buildSlots_reads hr hb1 h2
    refine ⟨F', hb', ?_⟩
    rw [htops, hview, Forest.tops_append, List.append_assoc]
    rfl

/-! ## When it succeeds -/

/-- A recursive call succeeds on what the disk describes, up to `n` nodes and as long as
there are free slots. -/
def Total (recur : Fs → FileRef → Nat → Except Fault (Option FileRef × Fs)) (n : Nat) : Prop :=
  ∀ ⦃s fa c secs t⦄, DirSecs s.sdb c secs → Decodes s.sdb t → t.tops = dirEntries s.sdb secs →
    t.size ≤ (freeSlots s).card → t.size < n → ∃ r, recur s fa c = .ok r

theorem buildEntry_total (hr : Reads recur) {n : Nat} (ht : Total recur n) {s0 : Fs}
    {buff : Sector} {off : Nat} {kids : Forest Entry} (hb : Built s0 s fa head F)
    (hd : Decodes s0.sdb (.cons (entryAt buff off) kids .nil))
    (hfree : kids.size + 1 ≤ (freeSlots s).card) (hn : kids.size < n) :
    ∃ r, buildEntry recur fa buff off head (lastRef F) s = .ok r ∧
      (freeSlots s).card = (freeSlots r.2.2).card + (kids.size + 1) := by
  obtain ⟨i, hi, -⟩ := getEmptyFile_ok (s := s) (by omega)
  obtain ⟨i, hi⟩ : ∃ i, emptySlot s = some i := by
    refine Option.isSome_iff_exists.mp (List.find?_isSome.mpr ⟨i, List.mem_finRange i, ?_⟩)
    simp [hi]
  obtain ⟨s2, hp, he⟩ := buildEntry_eq fa
    (fun x hx => hb.linked.used x hx) hi buff off
  have hsdb : s2.sdb = s0.sdb := by rw [hp.rest, hb.rest]
  obtain ⟨r, hok⟩ : ∃ r, buildEntry recur fa buff off head (lastRef F) s = .ok r := by
    rw [he]
    by_cases hsub : (entryAt buff off).IsSubdir
    · rw [if_pos hsub]
      have hk := hd.1
      rw [if_pos hsub] at hk
      obtain ⟨secs, hsecs, htops⟩ := hk
      have hcard : (freeSlots s).card ≤ (freeSlots s2).card + 1 := by
        refine card_freeSlots_le (i := i) fun x hxi hx => ?_
        rw [hp.other x hxi]
        · exact hx
        · intro hl
          have := hb.linked.used x (lastRef_mem hl)
          rw [hx] at this
          cases this
      obtain ⟨r, hrec⟩ := ht (s := s2) (hsdb ▸ hsecs) (hsdb ▸ hd.2.1)
        (hsdb ▸ htops) (by omega) hn
      rw [hrec]
      exact ⟨_, rfl⟩
    · rw [if_neg hsub]
      exact ⟨_, rfl⟩
  refine ⟨r, hok, ?_⟩
  -- the node and its children took their slots
  obtain ⟨j, G, hb', -, hview⟩ := buildEntry_reads hr hb hok
  have hdG := hb'.decodes
  rw [hview, decodes_append] at hdG
  have hkids := Decodes.unique hd hdG.2 rfl
  have hsize : kids.size = G.size := by
    rw [(Forest.cons.inj hkids).2.1, viewTree, Forest.size_map]
  have h1 := hb.card
  have h2 := hb'.card
  rw [Forest.size_append, Forest.size, Forest.size] at h2
  omega

theorem buildSlots_total (hr : Reads recur) {n : Nat} (ht : Total recur n) {s0 : Fs} :
    ∀ {t : Forest Entry} {l : List (Sector × Nat)} {s : Fs} {head : Option FileRef}
      {F : Forest (Fin 100)}, Built s0 s fa head F → Decodes s0.sdb t →
      (t.tops = l.map fun p => entryAt p.1 p.2) → t.size ≤ (freeSlots s).card → t.size ≤ n →
      ∃ r, buildSlots recur fa l head (lastRef F) s = .ok r
  | .nil, [], _, _, _, _, _, _, _, _ => ⟨_, rfl⟩
  | .nil, _ :: _, _, _, _, _, _, h, _, _ => by cases h
  | .cons _ _ _, [], _, _, _, _, _, h, _, _ => by cases h
  | .cons e kids sibs, (buff, off) :: l, s, head, F, hb, hd, h, hfree, hn => by
    obtain ⟨rfl, htail⟩ := List.cons.inj h
    rw [Forest.size] at hfree hn
    obtain ⟨r, hok, hcard⟩ := buildEntry_total hr ht hb ⟨hd.1, hd.2.1, trivial⟩
      (by omega) (by omega)
    obtain ⟨i, G, hb', hlast, -⟩ := buildEntry_reads hr hb hok
    obtain ⟨r', hok'⟩ := buildSlots_total hr ht hb' hd.2.2 htail (by omega) (by omega)
    refine ⟨r', bind_eq_ok.mpr ⟨r, hok, ?_⟩⟩
    rw [hlast, ← lastRef_append_node F i G]
    exact hok'

end Step

/-- **What `build_tree` builds, the disk describes.** -/
theorem buildTree_reads : ∀ n, Reads (buildTree n)
  | 0 => fun _ _ _ _ _ h => by cases h
  | n + 1 => fun s fa c p s' h => by
    have hr := buildTree_reads n
    obtain ⟨e, secs, hw, hlen⟩ := buildSectors_walk hr.keepsDisk rfl h
    rw [buildTree, buildSectors_eq hr.keepsDisk rfl hw hlen] at h
    obtain ⟨r, hb, he⟩ := bind_eq_ok.mp h
    cases he
    obtain ⟨F, hF, htops⟩ := buildSlots_reads hr (Built.nil s fa) hb
    exact ⟨F, secs, hF, ⟨hlen, e, hw⟩, htops⟩

/-- **What the disk describes, `build_tree` builds.** -/
theorem buildTree_total : ∀ n, Total (buildTree n) n
  | 0 => fun _ _ _ _ _ _ _ _ _ hn => absurd hn (Nat.not_lt_zero _)
  | n + 1 => fun s fa c secs t hsecs hd htops hfree hn => by
    obtain ⟨hlen, e, hw⟩ := hsecs
    have hr := buildTree_reads n
    obtain ⟨r, hok⟩ := buildSlots_total hr (buildTree_total n) (Built.nil s fa) hd htops hfree
      (Nat.le_of_lt_succ hn)
    refine ⟨(r.1, r.2.2), ?_⟩
    rw [buildTree, buildSectors_eq hr.keepsDisk rfl hw hlen]
    exact bind_eq_ok.mpr ⟨r, hok, rfl⟩

/-! ## Remounting -/

/-- The tree is what the disk describes. -/
def ReadsBack (d : Disk) (t : Forest Entry) : Prop :=
  t.tops = dirEntries d rootSectors ∧ Decodes d t

theorem ReadsBack.unique {d : Disk} {t t' : Forest Entry} (h : ReadsBack d t)
    (h' : ReadsBack d t') : t = t' := h.2.unique h'.2 (h.1.trans h'.1.symm)

/-- The tree after a remount is what the disk describes. -/
theorem filesystemInit_reads {s s' : Fs} (h : filesystemInit s = .ok s') :
    ∃ f, MemTree s' f ∧ ReadsBack s.sdb (viewTree s' f) := by
  obtain ⟨⟨son, s1⟩, hb, he⟩ := bind_eq_ok.mp h
  cases he
  obtain ⟨F, secs, hF, hsecs, htops⟩ := buildTree_reads _ hb
  rw [hsecs.unique (DirSecs.root _)] at htops
  exact ⟨F, ⟨hF.linked, hF.nodup⟩, htops, hF.decodes⟩

theorem card_freeSlots_fileInit (s : Fs) : (freeSlots (fileInit s)).card = 100 := by
  have hall : freeSlots (fileInit s) = Finset.univ := by
    ext j
    simp [mem_freeSlots, fileInit]
  rw [hall, Finset.card_univ, Fintype.card_fin]

/-- **A remount succeeds**, when what the disk describes fits into the file table. -/
theorem filesystemInit_ok {s : Fs} {t : Forest Entry} (h : ReadsBack s.sdb t) (hsize : t.size ≤ 100) :
    ∃ s' f, filesystemInit s = .ok s' ∧ MemTree s' f ∧ viewTree s' f = t := by
  have hfree := card_freeSlots_fileInit s
  obtain ⟨⟨son, s1⟩, hok⟩ := buildTree_total sibFuel (s := fileInit s)
    (DirSecs.root _) h.2 h.1 (by omega) (by unfold sibFuel; omega)
  have hinit : filesystemInit s = .ok (s1.setFile .rootfile { s1.rootfile with fstSon := son }) :=
    bind_eq_ok.mpr ⟨_, hok, rfl⟩
  obtain ⟨f, hm, hback⟩ := filesystemInit_reads hinit
  exact ⟨_, f, hinit, hm, hback.unique h⟩

end GwOS
