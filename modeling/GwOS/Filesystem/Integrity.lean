import GwOS.Filesystem.Write
import GwOS.Filesystem.Append
import GwOS.Filesystem.Delete

/-!
# No cross-linked files

The seven operations that allocate, link, truncate and free clusters, as one step
relation, and the invariant that no two live files share a cluster, over all finite
sequences of them (`runOps_wellFormed`).

The invariant holds for every run in which no entry is created in a subdirectory
without a free slot. In that one case `create_dir_entry` appends the new cluster
behind the end mark of the chain, which is not a FAT entry: the write lands in the
second FAT copy and in the root directory (`fullDirectory_breaks_mirror`).
-/

namespace GwOS

/-! ## Operations -/

/-- The operations on files and directories. A write is the sequence of `open_file`, the
writer and `close_file`. -/
inductive FsOp where
  | createEmptyFile (dir : FileRef) (filename : Name) (attr : UInt8) (wrtTime wrtDate : UInt16)
  | createEmptyDirectory (dir : FileRef) (filename : Name) (wrtTime wrtDate : UInt16)
  | writeFile (file : Fin 100) (type : FileOpenType) (content : List UInt8)
  | writeFileFromSda (file : Fin 100) (type : FileOpenType) (filesize : UInt32)
  | appendFile (file1 file2 : Fin 100)
  | deleteFile (dir : FileRef) (file : Fin 100)
  | deleteDirectory (fa : FileRef) (dir : Fin 100) (rc : Bool)

namespace FsOp

/-- The call. -/
def run (s : Fs) : FsOp → Except Fault (Bool × Fs)
  | createEmptyFile dir filename attr wrtTime wrtDate =>
    GwOS.createEmptyFile s dir filename attr wrtTime wrtDate
  | createEmptyDirectory dir filename wrtTime wrtDate =>
    GwOS.createEmptyDirectory s dir filename wrtTime wrtDate
  | writeFile file type content =>
    writeThrough s (.slot file) type fun s k => GwOS.writeFile s k content
  | writeFileFromSda file type filesize =>
    writeThrough s (.slot file) type fun s k => GwOS.writeFileFromSda s k filesize
  | appendFile file1 file2 => GwOS.appendFile s (.slot file1) (.slot file2)
  | deleteFile dir file => GwOS.deleteFile s dir (.slot file)
  | deleteDirectory fa dir rc => GwOS.deleteDirectory sibFuel s fa (.slot dir) rc

/-- The operation is applied to live nodes other than `.` and `..`. -/
def OnLive (s : Fs) (f : Forest (Fin 100)) : FsOp → Prop
  | createEmptyFile dir _ _ _ _ => LiveRef s f dir
  | createEmptyDirectory dir _ _ _ => LiveRef s f dir
  | writeFile file _ _ => Live s f file
  | writeFileFromSda file _ _ => Live s f file
  | appendFile file1 file2 => Live s f file1 ∧ Live s f file2
  | deleteFile dir file => LiveRef s f dir ∧ Live s f file
  | deleteDirectory fa dir _ => LiveRef s f fa ∧ Live s f dir

/-- There are enough free clusters and file slots, and a text that is typed fits into the buffer
of `vscanf`. A write stages at most 100 sectors, one more cluster is taken before the nodes run
out. Appending a file to itself takes a new cluster for every cluster it reads, so no number of
free clusters is enough, unless it needs none at all. -/
def Supplied (s : Fs) (chain : Fin 100 → List Nat) : FsOp → Prop
  | createEmptyFile _ _ _ _ _ => 1 ≤ (freeClusters s.sdb).card ∧ 1 ≤ (freeSlots s).card
  | createEmptyDirectory _ _ _ _ => 1 ≤ (freeClusters s.sdb).card ∧ 3 ≤ (freeSlots s).card
  | writeFile file _ content => content.length < 1000 ∧
    min ((content.length + 511) / 512) 101 ≤ (chain file).length + (freeClusters s.sdb).card
  | writeFileFromSda file _ filesize =>
    min (divRoundUp512 filesize) 101 ≤ (chain file).length + (freeClusters s.sdb).card
  | appendFile file1 file2 =>
    appendNeed (chain file1).length (s.filelist file2).fileSize ≤ (freeClusters s.sdb).card ∧
      (file1 ≠ file2 ∨ (s.filelist file2).fileSize.toNat % bytePerSec = 511)
  | deleteFile _ _ => True
  | deleteDirectory _ _ _ => True

/-- The text of a write does not fill `buff`, so that nothing is stored behind it. -/
def InBuffer : FsOp → Prop
  | writeFile _ _ content => content.length < bytePerSec
  | _ => True

/-- A new entry in a subdirectory finds a free slot, or is not written at all because
the name is taken. -/
def HasRoom (s : Fs) (f : Forest (Fin 100)) (chain : Fin 100 → List Nat) : FsOp → Prop
  | createEmptyFile dir filename _ _ _ | createEmptyDirectory dir filename _ _ =>
    dir = .rootfile ∨ ¬ NameUnused s f dir filename ∨
      ∃ x ∈ dirSectors chain dir, HasFreeSlot (s.sdb x)
  | _ => True

end FsOp

/-- A finite sequence of operations. -/
def runOps : List FsOp → Fs → Except Fault Fs
  | [], s => .ok s
  | op :: ops, s => op.run s >>= fun r => runOps ops r.2

/-! ## The invariant -/

/-- The volume and the tree are well formed: equal FAT copies, non-zero reserved
entries, and pairwise disjoint chains for the live nodes of the tree. -/
def WellFormed (s : Fs) : Prop := FatMirrored s.sdb ∧ ∃ f chain, Mounted s f chain

/-- No file is open, as `file_init` leaves the tables. -/
structure Closed (s : Fs) : Prop where
  file : ∀ k, (s.activelist k).file = none
  refCnt : ∀ k, (s.activelist k).refCnt = 0
  nodes : ∀ j, (s.afblNodelist j).used = false

theorem Closed.notOpen {s : Fs} (h : Closed s) (r : FileRef) : NotOpen s r := by
  intro k
  rw [h.file k]
  simp

theorem Closed.card_freeNodes {s : Fs} (h : Closed s) : (freeNodes s).card = 100 := by
  have : freeNodes s = Finset.univ := by
    ext j
    simp [mem_freeNodes, h.nodes j]
  rw [this, Finset.card_univ, Fintype.card_fin]

/-- Operations that leave the two tables alone. -/
theorem Closed.of_rest {s s' : Fs} (h : Closed s) (ha : s'.activelist = s.activelist)
    (hn : s'.afblNodelist = s.afblNodelist) : Closed s' :=
  ⟨fun k => by rw [ha]; exact h.file k, fun k => by rw [ha]; exact h.refCnt k,
    fun j => by rw [hn]; exact h.nodes j⟩

/-- One operation succeeds or fails, and keeps the invariant. -/
def KeepsWellFormed (s : Fs) (op : FsOp) : Prop :=
  ∃ ok s', op.run s = .ok (ok, s') ∧ WellFormed s' ∧ Closed s'

section Step

variable {s : Fs} {f : Forest (Fin 100)} {chain : Fin 100 → List Nat}

/-! ### Creation -/

theorem Created.keeps {s' : Fs} {dir : FileRef} {i : Fin 100} {node : File}
    {kids : Forest (Fin 100)} {c x off : Nat} {b : Sector}
    (hcr : Created s s' chain dir i node kids c x off b) (h : Mounted s f chain)
    (hm : FatMirrored s.sdb) (hcl : Closed s) (hdir : LiveRef s f dir) (hused : node.used = true)
    (hfa : node.fa = some dir) (hclus : node.fstClus = UInt16.ofNat c) :
    WellFormed s' ∧ Closed s' := by
  refine ⟨⟨hcr.touches.mirrored hm, _, _, hcr.mounted h hdir hused hfa hclus⟩, ?_⟩
  exact hcl.of_rest (by rw [hcr.rest]) (by rw [hcr.rest])

/-- The name is taken: only a message is printed. -/
theorem printf_keeps (h : Mounted s f chain) (hm : FatMirrored s.sdb) (hcl : Closed s)
    (msg : String) : WellFormed (s.printf msg) ∧ Closed (s.printf msg) :=
  ⟨⟨hm, f, chain, h.congr rfl (fun _ _ => SameNode.refl _) (Touches.refl _ ∅ ∅)⟩,
    hcl.of_rest rfl rfl⟩

/-- The entry cannot be written: the slot is given back, and the zeroed cluster stays
free. -/
theorem freshState_keeps (h : Mounted s f chain) (hm : FatMirrored s.sdb) (hcl : Closed s)
    {c : Nat} {i : Fin 100} (node : File) (hc : IsFree s.sdb c)
    (hi : (s.filelist i).used = false) :
    WellFormed (markUnused (freshState s c i node) (.slot i)) ∧
      Closed (markUnused (freshState s c i node) (.slot i)) := by
  refine ⟨⟨(freshState_touches (i := i) (n := node) hc).mirrored hm, f, chain, ?_⟩,
    hcl.of_rest rfl rfl⟩
  refine h.congr (S := {c + 31}) rfl (fun j hj => ?_)
    (freshState_touches (i := i) (n := node) hc)
  have hji : FileRef.slot j ≠ .slot i := h.tree.ne_of_unused (r := .slot j) hj hi
  have hfile : (markUnused (freshState s c i node) (.slot i)).file (.slot j) = s.file (.slot j) := by
    rw [markUnused, Fs.file_setFile_ne _ _ hji, freshState_file_ne hji]
  rw [Fs.file_slot, Fs.file_slot] at hfile
  rw [hfile]
  exact SameNode.refl _

/-- A full root directory rejects the entry. -/
theorem create_rootFull (h : Mounted s f chain) {c : Nat} {i : Fin 100} (node : File)
    (hc : IsFree s.sdb c) (hi : (s.filelist i).used = false)
    (hfull : ¬ ∃ x ∈ dirSectors chain .rootfile, HasFreeSlot (s.sdb x)) :
    createDirEntry (freshState s c i node) .rootfile (.slot i) =
      .ok (false, freshState s c i node) := by
  have hon := (freshState_mounted h node hc hi).dirOn (show LiveRef _ f .rootfile from trivial)
  have hfull' : ∀ x ∈ dirSectors chain .rootfile, ¬ HasFreeSlot ((freshState s c i node).sdb x) := by
    intro x hx hf
    refine hfull ⟨x, hx, ?_⟩
    have hne := dirSectors_ne_free h (show LiveRef s f .rootfile from trivial) hx hc
    have hsame : (freshState s c i node).sdb x = s.sdb x := by
      show Function.update s.sdb (c + 31) (Bytes.zero 512) x = _
      rw [Function.update_of_ne hne]
    rwa [hsame] at hf
  rcases createDirEntry_full hon (.slot i) hfull' with ⟨-, he⟩ | ⟨hne, -⟩
  · exact he
  · exact absurd rfl hne

/-- A successful creation: a new node of that name in `dir`. -/
def MadeNode (s s' : Fs) (chain : Fin 100 → List Nat) (dir : FileRef) (filename : Name) : Prop :=
  ∃ i node kids c x off b, Created s s' chain dir i node kids c x off b ∧
    node.filename = filename ∧ node.used = true ∧ node.fa = some dir ∧
    node.fstClus = UInt16.ofNat c

theorem MadeNode.keeps {s' : Fs} {dir : FileRef} {filename : Name}
    (hmade : MadeNode s s' chain dir filename) (h : Mounted s f chain) (hm : FatMirrored s.sdb)
    (hcl : Closed s) (hdir : LiveRef s f dir) : WellFormed s' ∧ Closed s' := by
  obtain ⟨i, node, kids, c, x, off, b, hcr, -, hused, hfa, hclus⟩ := hmade
  exact hcr.keeps h hm hcl hdir hused hfa hclus

/-- A creation that returns: with `true` when it has made a node, and well formed in any case. -/
def CreationKeeps (s : Fs) (chain : Fin 100 → List Nat) (dir : FileRef) (filename : Name)
    (op : FsOp) : Prop :=
  ∃ ok s', op.run s = .ok (ok, s') ∧ WellFormed s' ∧ Closed s' ∧
    (ok = true → MadeNode s s' chain dir filename)

/-- The name is taken, or there is no room for the entry. -/
theorem CreationKeeps.failed {s' : Fs} {dir : FileRef} {filename : Name} {op : FsOp}
    (hrun : op.run s = .ok (false, s')) (h : WellFormed s' ∧ Closed s') :
    CreationKeeps s chain dir filename op :=
  ⟨false, s', hrun, h.1, h.2, fun ht => absurd ht Bool.false_ne_true⟩

theorem createEmptyFile_keeps (h : Mounted s f chain) (hm : FatMirrored s.sdb) (hcl : Closed s)
    {dir : FileRef} {filename : Name} {attr : UInt8} {wrtTime wrtDate : UInt16}
    (hdir : LiveRef s f dir)
    (hsup : (FsOp.createEmptyFile dir filename attr wrtTime wrtDate).Supplied s chain)
    (hroom : (FsOp.createEmptyFile dir filename attr wrtTime wrtDate).HasRoom s f chain) :
    CreationKeeps s chain dir filename (.createEmptyFile dir filename attr wrtTime wrtDate) := by
  have hfree := isFree_of_card_pos hsup.1
  by_cases hname : NameUnused s f dir filename
  · by_cases hslot : ∃ x ∈ dirSectors chain dir, HasFreeSlot (s.sdb x)
    · obtain ⟨s', i, c, x, off, hrun, hcr⟩ := createEmptyFile_ok
        h hdir hname attr hfree hsup.2 hslot
      have hmade : MadeNode s s' chain dir filename := ⟨i, _, _, c, x, off, _, hcr, rfl, rfl, rfl, rfl⟩
      obtain ⟨hwf, hclosed⟩ := hmade.keeps h hm hcl hdir
      exact ⟨true, s', hrun, hwf, hclosed, fun _ => hmade⟩
    · have hroot : dir = .rootfile :=
        hroom.resolve_right fun ho => ho.elim (fun hn => hn hname) hslot
      subst hroot
      obtain ⟨c, i, hc, hi, hclus, s2, hget, hinit⟩ :=
        create_prefix h hfree hsup.2
      have hentry := create_rootFull h (initedFile (s.filelist i) .rootfile filename attr wrtTime
        wrtDate (UInt16.ofNat c) 0) hc hi hslot
      rw [← hinit filename attr wrtTime wrtDate] at hentry
      have hpath := createEmptyFile_failPath (isFileExist_none h.tree hdir.hasRef hname) hclus hget
        hentry
      rw [hinit filename attr wrtTime wrtDate] at hpath
      exact .failed hpath (freshState_keeps h hm hcl _ hc hi)
  · obtain ⟨p, hp⟩ := isFileExist_some h.tree hdir.hasRef hname
    refine .failed ?_ (printf_keeps h hm hcl (nameTakenMsg (s.file p).attr))
    show createEmptyFile s dir filename attr wrtTime wrtDate = _
    rw [createEmptyFile, hp]
    rfl

theorem createEmptyDirectory_keeps (h : Mounted s f chain) (hm : FatMirrored s.sdb)
    (hcl : Closed s) {dir : FileRef} {filename : Name} {wrtTime wrtDate : UInt16}
    (hdir : LiveRef s f dir)
    (hsup : (FsOp.createEmptyDirectory dir filename wrtTime wrtDate).Supplied s chain)
    (hroom : (FsOp.createEmptyDirectory dir filename wrtTime wrtDate).HasRoom s f chain) :
    CreationKeeps s chain dir filename (.createEmptyDirectory dir filename wrtTime wrtDate) := by
  have hfree := isFree_of_card_pos hsup.1
  by_cases hname : NameUnused s f dir filename
  · by_cases hslot : ∃ x ∈ dirSectors chain dir, HasFreeSlot (s.sdb x)
    · obtain ⟨s', i, j₁, j₂, c, x, off, node, dot, dotdot, hrun, rfl, -, -, -, -, hcr⟩ :=
        createEmptyDirectory_ok h hdir hname hfree hsup.2
          hslot
      have hmade : MadeNode s s' chain dir filename := ⟨i, _, _, c, x, off, _, hcr, rfl, rfl, rfl, rfl⟩
      obtain ⟨hwf, hclosed⟩ := hmade.keeps h hm hcl hdir
      exact ⟨true, s', hrun, hwf, hclosed, fun _ => hmade⟩
    · have hroot : dir = .rootfile :=
        hroom.resolve_right fun ho => ho.elim (fun hn => hn hname) hslot
      subst hroot
      obtain ⟨c, i, hc, hi, hclus, s2, hget, hinit⟩ :=
        create_prefix h hfree (le_trans (by decide) hsup.2)
      have hentry := create_rootFull h (initedFile (s.filelist i) .rootfile filename 0x10 wrtTime
        wrtDate (UInt16.ofNat c) 0) hc hi hslot
      rw [← hinit filename 0x10 wrtTime wrtDate] at hentry
      have hpath := createEmptyDirectory_failPath (isFileExist_none h.tree hdir.hasRef hname) hclus
        hget hentry
      rw [hinit filename 0x10 wrtTime wrtDate] at hpath
      exact .failed hpath (freshState_keeps h hm hcl _ hc hi)
  · obtain ⟨p, hp⟩ := isFileExist_some h.tree hdir.hasRef hname
    refine .failed ?_ (printf_keeps h hm hcl (nameTakenMsg (s.file p).attr))
    show createEmptyDirectory s dir filename wrtTime wrtDate = _
    rw [createEmptyDirectory, hp]
    rfl

/-! ### Writing -/

theorem Through.keeps {s' : Fs} {k : Fin 10} {i : Fin 100} {K' : List Nat} {B : List Sector}
    {size : UInt32} (ht : Through s s' k i (chain i) K' B size) (h : Mounted s f chain)
    (hm : FatMirrored s.sdb) (hcl : Closed s) (hi : Live s f i) :
    WellFormed s' ∧ Closed s' := by
  refine ⟨⟨ht.touches.mirrored hm, f, _, ht.mounted h hi⟩, ?_, ?_, ?_⟩
  · intro k'
    rw [ht.active]
    by_cases hk : k' = k
    · subst hk
      rw [Function.update_self]
      rfl
    · rw [Function.update_of_ne hk]
      exact hcl.file k'
  · intro k'
    rw [ht.active]
    by_cases hk : k' = k
    · subst hk
      rw [Function.update_self]
      rfl
    · rw [Function.update_of_ne hk]
      exact hcl.refCnt k'
  · intro j
    rw [ht.nodes j]
    exact hcl.nodes j

/-- A writer refuses a file opened for reading: nothing is staged. -/
theorem Written.refused (h : Mounted s f chain) {i : Fin 100} (hi : Live s f i) (k : Fin 10)
    (type : FileOpenType) :
    Written (activeFileOpen s k (.slot i) type) (activeFileOpen s k (.slot i) type) k i (chain i)
      (chain i) [] [] 0 := by
  refine ⟨h.volume.chains i hi, fun x hx => Or.inl hx, Touches.refl _ _ _, ⟨none, ?_, rfl⟩,
    List.nodup_nil, fun x hx => absurd hx List.not_mem_nil, fun _ _ => rfl, Nat.zero_le _, rfl⟩
  simp [activeFileOpen, Fs.setActive]

/-- The nodes of a closed table are enough for all but the last cluster. -/
theorem Closed.nodes_need {n len m : Nat} (hcl : Closed s) {s1 : Fs}
    (hn : s1.afblNodelist = s.afblNodelist) (h : min n 101 ≤ len + 1 + m) :
    0 < (freeNodes s1).card ∧ min (n - 1) (freeNodes s1).card ≤ len + m := by
  have hfn : freeNodes s1 = freeNodes s := by
    ext j
    rw [mem_freeNodes, mem_freeNodes, hn]
  rw [hfn, hcl.card_freeNodes]
  omega

/-- Both writers, through the open-file table; `P` is what a successful writer ensures. -/
theorem writeThrough_closed (h : Mounted s f chain) (hcl : Closed s) {i : Fin 100}
    (hi : Live s f i) {type : FileOpenType} {writer : Fs → Fin 10 → Except Fault (Bool × Fs)}
    {P : Disk → List Nat → UInt32 → Prop}
    (hP : ∀ {d d' K' size}, (∀ x, x < fatEntries → getFatNextCluster d' x =
      getFatNextCluster d x) → P d K' size → P d' K' size)
    (hro : ∀ s k, (s.activelist k).type = .readOnly → writer s k = .ok (false, s))
    (hwriter : ∀ {s1 : Fs} {k : Fin 10} {l : Nat} {Q : List Nat}, s1.sdb = s.sdb →
      s1.afblNodelist = s.afblNodelist → (s1.activelist k).file = some (.slot i) →
      (s1.activelist k).type ≠ .readOnly → chain i = l :: Q →
      FileChain s1.sdb (firstClus s1 i) (l :: Q) →
      ∃ ok s2 K' N B size, writer s1 k = .ok (ok, s2) ∧ Written s1 s2 k i (l :: Q) K' N B size ∧
        (ok = true → P s2.sdb K' size)) :
    ∃ ok s' k K' B size, writeThrough s (.slot i) type writer = .ok (ok, s') ∧
      Through s s' k i (chain i) K' B size ∧ (ok = true → P s'.sdb K' size) := by
  refine writeThrough_ok (hcl.notOpen (.slot i)) ⟨0, hcl.refCnt 0⟩
    (P := fun ok d K' _ size => ok = true → P d K' size)
    (fun hfat hp hok => hP hfat (hp hok)) fun k _ => ?_
  have hself := activeFileOpen_self s k (.slot i) type
  by_cases hty : type = .readOnly
  · exact ⟨false, _, chain i, [], [], 0, hro _ k (by rw [hself]; exact hty),
      Written.refused h hi k type, fun hok => absurd hok Bool.false_ne_true⟩
  · have hK := h.volume.chains i hi
    obtain ⟨l, Q, hlQ⟩ := List.exists_cons_of_ne_nil hK.nonempty
    rw [hlQ] at hK
    obtain ⟨ok, s2, K', N, B, size, hrun, hw, hpost⟩ := hwriter
      (show (activeFileOpen s k (.slot i) type).sdb = s.sdb from rfl) rfl (by rw [hself])
      (by rw [hself]; exact hty) hlQ hK
    exact ⟨ok, s2, K', N, B, size, hrun, hlQ ▸ hw, hpost⟩

/-- **A write of typed text.** When it succeeds the size is the length of the text. -/
theorem writeFile_through (h : Mounted s f chain) (hcl : Closed s) {i : Fin 100}
    {type : FileOpenType} {content : List UInt8} (hi : Live s f i)
    (hsup : (FsOp.writeFile i type content).Supplied s chain) :
    ∃ ok s' k K' B size, (FsOp.writeFile i type content).run s = .ok (ok, s') ∧
      Through s s' k i (chain i) K' B size ∧
      (ok = true → size = UInt32.ofNat content.length ∧
        Recut s.sdb s'.sdb (chain i) K' (max 1 ((content.length + 511) / 512))) := by
  refine writeThrough_closed h hcl hi (P := fun d K' size => size = UInt32.ofNat content.length ∧
    Recut s.sdb d (chain i) K' (max 1 ((content.length + 511) / 512)))
    (fun hfat hp => ⟨hp.1, hp.2.congr hfat⟩) (fun s k hty => by rw [writeFile, if_pos hty]) ?_
  intro s1 k l Q hsdb hnodes hfile hty hlQ hK
  obtain ⟨hfit, hsup'⟩ := hsup
  rw [hlQ, List.length_cons] at hsup'
  obtain ⟨hfn, hneed⟩ := hcl.nodes_need hnodes hsup'
  obtain ⟨ok, s2, K', N, B, size, hrun, hw, hpost, -⟩ := writeFile_ok hfit hfile hty
    (by rw [hsdb]; exact h.volume.entry0) (by rw [hsdb]; exact h.volume.entry1) hK hfn
    (by rw [hsdb]; exact hneed)
  refine ⟨ok, s2, K', N, B, size, hrun, hw, fun hok => ?_⟩
  rw [hlQ, ← hsdb]
  exact ⟨(hpost hok).1, (hpost hok).2.1⟩

/-- **A write from `sda`.** When it succeeds the size is the one that was asked for. -/
theorem writeFileFromSda_through (h : Mounted s f chain) (hcl : Closed s) {i : Fin 100}
    {type : FileOpenType} {filesize : UInt32} (hi : Live s f i)
    (hsup : (FsOp.writeFileFromSda i type filesize).Supplied s chain) :
    ∃ ok s' k K' B size, (FsOp.writeFileFromSda i type filesize).run s = .ok (ok, s') ∧
      Through s s' k i (chain i) K' B size ∧ (ok = true → size = filesize) := by
  refine writeThrough_closed h hcl hi (P := fun _ _ size => size = filesize) (fun _ hp => hp)
    (fun s k hty => by rw [writeFileFromSda, if_pos hty]) ?_
  intro s1 k l Q hsdb hnodes hfile hty hlQ hK
  have hsup' : min (divRoundUp512 filesize) 101 ≤ (chain i).length +
    (freeClusters s.sdb).card := hsup
  rw [hlQ, List.length_cons] at hsup'
  obtain ⟨hfn, hneed⟩ := hcl.nodes_need hnodes hsup'
  obtain ⟨ok, s2, E, N, B, size, hrun, hw, hok, -⟩ := writeFileFromSda_ok filesize hfile hty
    (by rw [hsdb]; exact h.volume.entry0) (by rw [hsdb]; exact h.volume.entry1) hK hfn
    (by rw [hsdb]; exact hneed)
  exact ⟨ok, s2, _, N, B, size, hrun, hw, fun h => (hok h).1⟩

/-! ### Appending and deleting -/

theorem appendFile_keeps (h : Mounted s f chain) (hm : FatMirrored s.sdb) (hcl : Closed s)
    {i₁ i₂ : Fin 100} (hi₁ : Live s f i₁) (hi₂ : Live s f i₂)
    (hsup : (FsOp.appendFile i₁ i₂).Supplied s chain) :
    KeepsWellFormed s (.appendFile i₁ i₂) := by
  obtain ⟨d', E, hrun, hx⟩ := appendFile_ok h hi₁ hi₂ hsup.2 hsup.1
  exact ⟨true, _, hrun, ⟨hx.touches.mirrored hm, f, _, hx.mounted _ h hi₂⟩, hcl.of_rest rfl rfl⟩

theorem Removed.keeps {s' : Fs} {r : FileRef} {i : Fin 100} {ok : Bool}
    (hr : Removed s s' f chain r i ok) (h : Mounted s f chain) (hm : FatMirrored s.sdb)
    (hcl : Closed s) (href : HasRef f r) (hi : Live s f i) : WellFormed s' ∧ Closed s' := by
  cases hr with
  | gone hc hg =>
    refine ⟨⟨hg.touches.mirrored hm, _, chain, hg.mounted h href hc hi.2⟩, ?_⟩
    exact hcl.of_rest (by rw [hg.rest]) (by rw [hg.rest])
  | absent msg hc hs =>
    subst hs
    exact printf_keeps h hm hcl msg

/-! ### Any operation -/

/-- **One step keeps the invariant.** -/
theorem FsOp.keeps (h : Mounted s f chain) (hm : FatMirrored s.sdb) (hcl : Closed s) {op : FsOp}
    (hon : op.OnLive s f) (hsup : op.Supplied s chain) (hroom : op.HasRoom s f chain) :
    KeepsWellFormed s op := by
  cases op with
  | createEmptyFile dir filename attr wrtTime wrtDate =>
    obtain ⟨ok, s', hrun, hwf, hclosed, -⟩ := createEmptyFile_keeps h hm hcl hon hsup hroom
    exact ⟨ok, s', hrun, hwf, hclosed⟩
  | createEmptyDirectory dir filename wrtTime wrtDate =>
    obtain ⟨ok, s', hrun, hwf, hclosed, -⟩ := createEmptyDirectory_keeps h hm hcl hon hsup hroom
    exact ⟨ok, s', hrun, hwf, hclosed⟩
  | writeFile file type content =>
    obtain ⟨ok, s', k, K', B, size, hrun, ht, -⟩ := writeFile_through h hcl hon hsup
    exact ⟨ok, s', hrun, ht.keeps h hm hcl hon⟩
  | writeFileFromSda file type filesize =>
    obtain ⟨ok, s', k, K', B, size, hrun, ht, -⟩ := writeFileFromSda_through h hcl hon hsup
    exact ⟨ok, s', hrun, ht.keeps h hm hcl hon⟩
  | appendFile file1 file2 => exact appendFile_keeps h hm hcl hon.1 hon.2 hsup
  | deleteFile dir file =>
    obtain ⟨ok, s', hrun, hr, -⟩ := deleteFile_removed h hon.1.hasRef hon.2
    exact ⟨ok, s', hrun, hr.keeps h hm hcl hon.1.hasRef hon.2⟩
  | deleteDirectory fa dir rc =>
    obtain ⟨ok, s', hrun, hr, -⟩ := deleteDirectory_removed h hon.1.hasRef hon.2 rc
    exact ⟨ok, s', hrun, hr.keeps h hm hcl hon.1.hasRef hon.2⟩

end Step

/-! ## Runs -/

/-- Every step of the run is applied to live nodes, has the clusters and slots it needs
and finds room in the directory. The tree and the chains are those of the state in which
the step is made; `Mounted` determines them. -/
def AdmissibleRun : List FsOp → Fs → Prop
  | [], _ => True
  | op :: ops, s =>
    (∀ f chain, Mounted s f chain →
      op.OnLive s f ∧ op.Supplied s chain ∧ op.HasRoom s f chain) ∧
    ∀ r, op.run s = .ok r → AdmissibleRun ops r.2

/-- **No cross-linked files.** Every state an admissible run passes through is well
formed. -/
theorem runOps_wellFormed : ∀ {ops pre : List FsOp} {s : Fs}, WellFormed s → Closed s →
    AdmissibleRun ops s → pre <+: ops → ∃ s', runOps pre s = .ok s' ∧ WellFormed s'
  | _, [], s, hw, _, _, _ => ⟨s, rfl, hw⟩
  | [], _ :: _, _, _, _, _, hpre => absurd hpre.length_le (by simp)
  | op :: ops, op' :: pre, s, hw, hcl, hadm, hpre => by
    obtain ⟨rfl, htail⟩ := List.cons_prefix_cons.mp hpre
    obtain ⟨hm, f, chain, h⟩ := hw
    obtain ⟨hon, hsup, hroom⟩ := hadm.1 f chain h
    obtain ⟨ok, s1, hrun, hw1, hcl1⟩ := op'.keeps h hm hcl hon hsup hroom
    obtain ⟨s', hrest, hw'⟩ := runOps_wellFormed hw1 hcl1 (hadm.2 _ hrun) htail
    refine ⟨s', ?_, hw'⟩
    rw [runOps, hrun]
    exact hrest

/-! ## A directory without a free slot -/

theorem bootedFs_closed (sdb : Disk) (fstSon : Option FileRef) (filelist : Fin 100 → File) :
    Closed (bootedFs sdb fstSon filelist) :=
  ⟨fun _ => rfl, fun _ => rfl, fun _ => rfl⟩

/-- An empty volume. -/
def emptyFs : Fs := bootedFs (smallVolume (fatHead 0 0) (Bytes.zero 512) (Bytes.zero 512)) none fun _ => blankFile

theorem emptyFs_wellFormed : WellFormed emptyFs := by
  refine ⟨smallVolume_mirrored _ _ _, .nil, fun _ => [], ⟨rfl, List.nodup_nil⟩, by decide, by decide,
    ?_, ?_⟩
  · exact fun i hi => absurd hi.1 List.not_mem_nil
  · exact fun i j hi => absurd hi.1 List.not_mem_nil

/-- A file is created in the root of an empty volume. -/
theorem runOps_wellFormed_create :
    ∃ s', runOps [.createEmptyFile .rootfile sampleName 0x20 0 0] emptyFs = .ok s' ∧
      WellFormed s' := by
  have hadm : AdmissibleRun [.createEmptyFile .rootfile sampleName 0x20 0 0] emptyFs := by
    refine ⟨?_, fun _ _ => trivial⟩
    intro f chain _
    refine ⟨trivial, ⟨?_, ?_⟩, Or.inl rfl⟩
    · exact Finset.card_pos.mpr ⟨2, mem_freeClusters.mpr (by decide)⟩
    · exact Finset.card_pos.mpr ⟨0, mem_freeSlots.mpr rfl⟩
  exact runOps_wellFormed emptyFs_wellFormed (bootedFs_closed _ _ _) hadm (List.prefix_refl _)

/-- The sector of a directory with 16 entries: `.`, `..` and 14 files. -/
def fullDirectory : Sector := Bytes.ofFn fun i =>
  if i < 11 then (dotName 1).get i
  else if 32 ≤ i ∧ i < 43 then (dotName 2).get (i - 32)
  else if i % 32 = 0 then UInt8.ofNat (0x41 + i / 32)
  else if i % 32 < 11 then 0x20
  else if i % 32 = 11 then (if i < 64 then 0x10 else 0x20)
  else if i % 32 = 26 then (if i < 32 then 2 else if i < 64 then 0 else 3)
  else 0

/-- The nodes of the directory, of its `.` and of its `..`. Its files have been deleted;
their entries are still in the sector. -/
def fullDirNodes (i : Fin 100) : File :=
  if i = 0 then
    { blankFile with
      used := true, filename := Bytes.ofFn fun _ => 0x44, attr := 0x10, fstClus := 2,
      fa := some .rootfile, fstSon := some (.slot 1) }
  else if i = 1 then
    { blankFile with
      used := true, filename := dotName 1, attr := 0x10, fstClus := 2, fa := some (.slot 0),
      nextSib := some (.slot 2) }
  else if i = 2 then
    { blankFile with
      used := true, filename := dotName 2, attr := 0x10, fstClus := 0, fa := some (.slot 0) }
  else blankFile

/-- The root directory with the entry of the directory. -/
def fullDirRoot : Sector := putDirEntry (Bytes.zero 512) 0 (fullDirNodes 0)

def fullDirFs : Fs :=
  bootedFs (smallVolume (fatHead 0xFF 0x0F) fullDirRoot fullDirectory) (some (.slot 0)) fullDirNodes

theorem fullDirFs_mounted : Mounted fullDirFs
    (.cons 0 (.cons 1 .nil (.cons 2 .nil .nil)) .nil) fun _ => [2] := by
  have hlive : ∀ i, Live fullDirFs (.cons 0 (.cons 1 .nil (.cons 2 .nil .nil)) .nil) i → i = 0 := by
    rintro i ⟨hi, hdot⟩
    have hi' : i ∈ [(0 : Fin 100), 1, 2] := hi
    simp only [List.mem_cons, List.not_mem_nil, or_false] at hi'
    rcases hi' with rfl | rfl | rfl
    · rfl
    · exact absurd (Or.inl rfl) hdot
    · exact absurd (Or.inr rfl) hdot
  refine ⟨⟨?_, by decide⟩, by decide, by decide, ?_, ?_⟩
  · exact ⟨rfl, rfl, rfl, ⟨rfl, rfl, rfl, rfl, rfl, rfl, rfl, rfl, rfl⟩, rfl⟩
  · intro i hi
    obtain rfl := hlive i hi
    have hend : IsEnd (getFatNextCluster fullDirFs.sdb 2) := by decide
    exact ⟨⟨rfl, by decide, hend⟩, by decide, by decide⟩
  · intro i j hi hj hij
    exact absurd ((hlive i hi).trans (hlive j hj).symm) hij

/-- A file is created in a directory without a free slot: the two FAT copies differ
afterwards, although there are free clusters and file slots. -/
theorem fullDirectory_breaks_mirror :
    WellFormed fullDirFs ∧ Closed fullDirFs ∧
      (∀ f chain, Mounted fullDirFs f chain →
        (FsOp.createEmptyFile (.slot 0) sampleName 0x20 0 0).OnLive fullDirFs f ∧
        (FsOp.createEmptyFile (.slot 0) sampleName 0x20 0 0).Supplied fullDirFs chain) ∧
      ∃ s', runOps [.createEmptyFile (.slot 0) sampleName 0x20 0 0] fullDirFs = .ok s' ∧
        ¬ WellFormed s' := by
  refine ⟨⟨smallVolume_mirrored _ _ _, _, _, fullDirFs_mounted⟩, bootedFs_closed _ _ _, ?_, ?_⟩
  · intro f chain h
    refine ⟨⟨?_, by decide⟩, Finset.card_pos.mpr ⟨3, mem_freeClusters.mpr (by decide)⟩,
      Finset.card_pos.mpr ⟨3, mem_freeSlots.mpr rfl⟩⟩
    have hl := h.tree.linked
    cases f with
    | nil => cases hl
    | cons i kids sibs =>
      obtain ⟨hp, -⟩ := hl
      cases hp
      exact List.mem_cons_self ..
  · -- the end mark 0xFFF taken as a FAT entry is at offset 6142, past the first copy
    have hrun : ∃ s', runOps [.createEmptyFile (.slot 0) sampleName 0x20 0 0] fullDirFs =
        .ok s' ∧ (s'.sdb 3).get 510 ≠ (s'.sdb 12).get 510 := by
      have hcheck : (match runOps [.createEmptyFile (.slot 0) sampleName 0x20 0 0] fullDirFs with
        | .ok s' => decide ((s'.sdb 3).get 510 ≠ (s'.sdb 12).get 510)
        | .error _ => false) = true := by decide +kernel
      generalize runOps [.createEmptyFile (.slot 0) sampleName 0x20 0 0] fullDirFs = x at hcheck
      cases x with
      | error e => cases hcheck
      | ok s' => exact ⟨s', rfl, of_decide_eq_true hcheck⟩
    obtain ⟨s', hs, hne⟩ := hrun
    refine ⟨s', hs, fun hw => hne ?_⟩
    rw [hw.1 3 (by decide) (by decide)]

end GwOS
