import GwOS.Filesystem.Concat
import GwOS.Filesystem.Shell

/-!
# What `cat` prints and leaves

`read_file` counts the characters it has printed, and leaves the sector it is in when the count
has reached the size of the file; the walk over the chain goes on. So the text it prints
(`chainText`) is the file only when the size is reached in the last cluster.

- `readFile_prints_iff`: for which sizes `read_file` prints the file.
- `cat_changesNothing_iff`: for which files reading changes nothing. `active_file_close` stores
  the number of staged bytes as the size of the file, and nothing is staged by a read.
-/

namespace GwOS

/-! ## The text -/

/-- What is printed of a sector when `size` characters have been printed before it. -/
def sectorText (fileSize size : Nat) (bytes : List UInt8) : List UInt8 :=
  if size < fileSize then bytes.take (fileSize - size) else bytes

/-- What is printed of the clusters of a chain. -/
def chainText (d : Disk) (fileSize : Nat) : Nat → List Nat → List UInt8
  | _, [] => []
  | size, k :: K =>
    let text := sectorText fileSize size (List.ofFn (d (k + 31)))
    text ++ chainText d fileSize (size + text.length) K

theorem printBytes_eq (fileSize : UInt32) (bytes : List UInt8) (s : Fs) (size : Nat) :
    printBytes fileSize bytes s size =
      ({ s with
          console := s.console ++ (sectorText fileSize.toNat size bytes).map charText },
        size + (sectorText fileSize.toNat size bytes).length) := by
  induction bytes generalizing s size with
  | nil => simp [printBytes, sectorText]
  | cons b bytes ih =>
    rw [printBytes]
    by_cases hlast : size + 1 = fileSize.toNat
    · have htext : sectorText fileSize.toNat size (b :: bytes) = [b] := by
        rw [sectorText, if_pos (by omega), ← hlast, Nat.add_sub_cancel_left]
        rfl
      rw [if_pos hlast, htext]
      rfl
    · have htext : sectorText fileSize.toNat size (b :: bytes) =
          b :: sectorText fileSize.toNat (size + 1) bytes := by
        rw [sectorText, sectorText]
        by_cases hlt : size < fileSize.toNat
        · obtain ⟨m, hm⟩ : ∃ m, fileSize.toNat - size = m + 1 :=
            ⟨fileSize.toNat - size - 1, by omega⟩
          rw [if_pos hlt, if_pos (by omega), hm, List.take_succ_cons,
            show fileSize.toNat - (size + 1) = m by omega]
        · rw [if_neg hlt, if_neg (by omega)]
      rw [if_neg hlast, ih, htext]
      simp only [Fs.printf, List.append_assoc, List.singleton_append, List.map_cons,
        List.length_cons, Prod.mk.injEq, true_and]
      omega

/-- The walk from `c` visits the clusters `K`, whose sectors can be read, and ends. -/
def Readable (d : Disk) (c : Nat) (K : List Nat) : Prop :=
  Chain.Visits (getFatNextCluster d) IsEnd c K ∧ ∀ k ∈ K, k + 31 ≤ secCnt

theorem FileChain.readable {d : Disk} {c : Nat} {K : List Nat} (h : FileChain d c K) :
    Readable d c K := ⟨h.visits, fun k hk => sec_le (h.range k hk).2⟩

theorem Readable.length_lt {d : Disk} {c : Nat} {K : List Nat} (h : Readable d c K) :
    K.length < walkFuel := by
  have hsub : K.toFinset ⊆ Finset.range 2850 := by
    intro k hk
    have hle := h.2 k (List.mem_toFinset.mp hk)
    unfold secCnt at hle
    exact Finset.mem_range.mpr (by omega)
  have hcard := Finset.card_le_card hsub
  rw [List.toFinset_card_of_nodup h.1.nodup, Finset.card_range] at hcard
  unfold walkFuel
  omega

/-- The loop of `read_file` along the rest of a chain. -/
theorem readLoop_eq (fileSize : UInt32) {d : Disk} {c n : Nat} {K : List Nat} {s : Fs} (size : Nat)
    (hd : s.sdb = d) (h : Readable d c K) (hn : K.length < n) :
    readLoop fileSize n s c size = .ok { s with
      console := s.console ++ (chainText d fileSize.toNat size K).map charText } := by
  induction K generalizing c n s size with
  | nil =>
    obtain ⟨n, rfl⟩ : ∃ m, n = m + 1 := ⟨n - 1, by rw [List.length_nil] at hn; omega⟩
    have hend : isEndMark c = true := isEndMark_iff.mpr h.1
    simp [readLoop, hend, chainText]
  | cons k K ih =>
    obtain ⟨n, rfl⟩ : ∃ m, n = m + 1 := ⟨n - 1, by omega⟩
    obtain ⟨⟨rfl, hstop, hrest⟩, hsec⟩ := h
    have hk : c + 31 ≤ secCnt := hsec c List.mem_cons_self
    have hu : u16 (c + clusToSec) = c + 31 := by
      unfold secCnt at hk
      unfold u16 clusToSec
      omega
    rw [readLoop, if_neg (by rw [isEndMark_eq_false hstop]; exact Bool.false_ne_true), hu,
      readSector_ok _ hk]
    simp only [bind, Except.bind, printBytes_eq, hd]
    rw [ih _ rfl ⟨hrest, fun x hx => hsec x (List.mem_cons_of_mem _ hx)⟩
      (by rw [List.length_cons] at hn; omega)]
    simp [chainText, List.append_assoc]

/-- `read_file` prints the text of the chain and a newline. -/
theorem readFile_eq {s : Fs} {k : Fin 10} {r : FileRef} {K : List Nat}
    (hfile : (s.activelist k).file = some r) (h : Readable s.sdb (s.file r).fstClus.toNat K) :
    readFile s k = .ok { s with
      console := s.console ++
        (chainText s.sdb (s.file r).fileSize.toNat 0 K).map charText ++ ["\n"] } := by
  rw [readFile, hfile]
  simp only [readLoop_eq _ 0 rfl h h.length_lt, bind, Except.bind]
  rfl

/-! ## Which text it is -/

/-- The text is the file when the size is reached in the last cluster. -/
theorem chainText_eq_content (d : Disk) (fileSize size : Nat) {K : List Nat}
    (hle : fileSize - size ≤ 512 * K.length) (hlast : 512 * K.length < fileSize - size + 512) :
    chainText d fileSize size K = content d K (fileSize - size) := by
  induction K generalizing size with
  | nil =>
    rw [List.length_nil] at hle
    rw [show fileSize - size = 0 by omega]
    rfl
  | cons k K ih =>
    rw [List.length_cons] at hle hlast
    have hlt : size < fileSize := by omega
    rw [chainText, sectorText, if_pos hlt]
    by_cases hin : fileSize - size ≤ 512
    · have hnil : K = [] := List.length_eq_zero_iff.mp (by omega)
      rw [content_first d k K hin, hnil]
      exact List.append_nil _
    · have hall : (List.ofFn (d (k + 31))).take (fileSize - size) = List.ofFn (d (k + 31)) :=
        List.take_of_length_le (by rw [length_ofFn_sector]; omega)
      have hrest := ih (size + 512) (by omega) (by omega)
      simp only [hall, length_ofFn_sector, hrest]
      rw [← content_cons, show 512 + (fileSize - (size + 512)) = fileSize - size by omega]

/-- A sector prints at least one character, and never stops before the size is reached. -/
theorem length_sectorText {fileSize size : Nat} {bytes : List UInt8} :
    (sectorText fileSize size bytes).length =
      if size < fileSize then min (fileSize - size) bytes.length else bytes.length := by
  rw [sectorText]
  split
  · exact List.length_take
  · rfl

/-- Every cluster behind the end of the file is printed as well. -/
theorem length_chainText_gt (d : Disk) (fileSize size : Nat) {K : List Nat} (hK : K ≠ [])
    (hle : fileSize - size ≤ 512 * (K.length - 1)) :
    fileSize - size < (chainText d fileSize size K).length := by
  induction K generalizing size with
  | nil => exact absurd rfl hK
  | cons k K ih =>
    have hsector := @length_sectorText fileSize size (List.ofFn (d (k + 31)))
    rw [length_ofFn_sector] at hsector
    rw [List.length_cons, Nat.add_sub_cancel] at hle
    rw [chainText, List.length_append]
    generalize (sectorText fileSize size (List.ofFn (d (k + 31)))).length = printed at hsector ⊢
    by_cases hlt : size < fileSize
    · -- the size is reached in front of the last cluster
      rw [if_pos hlt] at hsector
      have hne : K ≠ [] := by
        rintro rfl
        rw [List.length_nil] at hle
        omega
      have hpos : 0 < K.length := List.length_pos_iff.mpr hne
      have hrest := ih (size + printed) hne (by omega)
      omega
    · rw [if_neg hlt] at hsector
      omega

/-- One character for every byte. -/
theorem map_charText_iff (bytes : List UInt8) :
    bytes.map charText = bytes.map (fun b => String.singleton (Char.ofNat b.toNat)) ↔
      0 ∉ bytes := by
  rw [List.map_inj_left]
  refine ⟨fun h hzero => ?_, fun h b hb => if_neg fun (h0 : b = 0x00) => h (h0 ▸ hb)⟩
  have hempty : "" = String.singleton (Char.ofNat 0) := h 0 hzero
  exact absurd hempty (by decide)

/-- **`read_file`** on a file whose chain is long enough. It makes one `printf` call for every byte
of the file, and no other, exactly when the last byte is in the last cluster. As an end mark
prints nothing, every byte becomes one character on the console when no byte is zero. -/
theorem readFile_prints_iff {s : Fs} {k : Fin 10} {r : FileRef} {K : List Nat}
    (hfile : (s.activelist k).file = some r) (hK : FileChain s.sdb (s.file r).fstClus.toNat K)
    (hsize : (s.file r).fileSize.toNat ≤ 512 * K.length) :
    ∃ s', readFile s k = .ok s' ∧
      (s'.console = s.console ++
          (content s.sdb K (s.file r).fileSize.toNat).map charText ++ ["\n"] ↔
        512 * (K.length - 1) < (s.file r).fileSize.toNat) ∧
      (s'.console = s.console ++ (content s.sdb K (s.file r).fileSize.toNat).map
            (fun b => String.singleton (Char.ofNat b.toNat)) ++ ["\n"] ↔
        512 * (K.length - 1) < (s.file r).fileSize.toNat ∧
          0 ∉ content s.sdb K (s.file r).fileSize.toNat) := by
  refine ⟨_, readFile_eq hfile hK.readable, ?_⟩
  generalize (s.file r).fileSize.toNat = fileSize at hsize ⊢
  have hcancel : ∀ A B : List String,
      s.console ++ A ++ ["\n"] = s.console ++ B ++ ["\n"] ↔ A = B := by
    intro A B
    rw [List.append_left_inj, List.append_right_inj]
  have hpos : 0 < K.length := List.length_pos_iff.mpr hK.nonempty
  rw [hcancel, hcancel]
  by_cases hlast : 512 * (K.length - 1) < fileSize
  · -- the `break` comes in the last cluster
    have htext := chainText_eq_content s.sdb fileSize 0 (K := K) (by omega) (by omega)
    rw [Nat.sub_zero] at htext
    rw [htext, map_charText_iff]
    exact ⟨iff_of_true rfl hlast, ⟨fun h => ⟨hlast, h⟩, fun h => h.2⟩⟩
  · -- too much has been printed
    have hgt := length_chainText_gt s.sdb fileSize 0 hK.nonempty (by omega)
    rw [Nat.sub_zero] at hgt
    have hne : ∀ g : UInt8 → String, (chainText s.sdb fileSize 0 K).map charText ≠
        (content s.sdb K fileSize).map g := by
      intro g heq
      have hlen := congrArg List.length heq
      rw [List.length_map, List.length_map, content, List.length_map, List.length_range] at hlen
      omega
    exact ⟨iff_of_false (hne _) hlast, iff_of_false (hne _) fun h => hlast h.1⟩

/-- A file of `size` bytes in the cluster 2, which is full of `A`s. -/
def lettersFs (size : UInt32) : Fs :=
  bootedFs (smallVolume (fatHead 0xFF 0x0F) (Bytes.zero 512) (Bytes.ofFn fun _ => 0x41))
    (some (.slot 0)) fun i => if i = 0 then { oneFile with fileSize := size } else blankFile

theorem lettersFs_chain (size : UInt32) :
    FileChain (lettersFs size).sdb ((lettersFs size).file (.slot 0)).fstClus.toNat [2] := by
  have hend : IsEnd (getFatNextCluster (lettersFs size).sdb 2) := by
    show IsEnd (getFatNextCluster (smallVolume (fatHead 0xFF 0x0F) (Bytes.zero 512)
      (Bytes.ofFn fun _ => 0x41)) 2)
    decide
  exact ⟨⟨rfl, by decide, hend⟩, by decide, by decide⟩

/-- The content of a file of three bytes is printed. -/
theorem readFile_prints_three :
    ∃ s', readFile (activeFileOpen (lettersFs 3) 0 (.slot 0) .readOnly) 0 = .ok s' ∧
      s'.console = ["A", "A", "A", "\n"] := by
  have hself := activeFileOpen_self (lettersFs 3) 0 (.slot 0) .readOnly
  obtain ⟨s', hrun, hprint, -⟩ := readFile_prints_iff
    (s := activeFileOpen (lettersFs 3) 0 (.slot 0) .readOnly) (k := 0) (r := .slot 0)
    (by rw [hself]) (lettersFs_chain 3) (by decide)
  exact ⟨s', hrun, hprint.mpr (by decide)⟩

/-- Of an empty file the whole sector is printed. -/
theorem readFile_prints_garbage :
    ∃ s', readFile (activeFileOpen (lettersFs 0) 0 (.slot 0) .readOnly) 0 = .ok s' ∧
      s'.console ≠ ["\n"] := by
  have hself := activeFileOpen_self (lettersFs 0) 0 (.slot 0) .readOnly
  have hfile : ((activeFileOpen (lettersFs 0) 0 (.slot 0) .readOnly).activelist 0).file =
      some (.slot 0) := by rw [hself]
  refine ⟨_, readFile_eq hfile (lettersFs_chain 0).readable, fun heq => ?_⟩
  have hgt := length_chainText_gt (lettersFs 0).sdb 0 0 (K := [2]) (by decide) (by decide)
  have hlen := congrArg List.length heq
  rw [List.length_append, List.length_append, List.length_map, List.length_singleton] at hlen
  have hmore : 0 < (chainText (activeFileOpen (lettersFs 0) 0 (.slot 0) .readOnly).sdb
      ((activeFileOpen (lettersFs 0) 0 (.slot 0) .readOnly).file (.slot 0)).fileSize.toNat 0
      [2]).length := hgt
  omega

/-! ## Reading changes nothing -/

/-- `shell_cat` from `open_file` on. -/
def readThrough (s : Fs) (r : FileRef) : Except Fault Fs :=
  match openFile s r .readOnly with
  | (none, s) =>
    .ok (s.printf "The active file list is full. Failed to open and print the file.\n")
  | (some k, s) => do
    let s ← readFile s k
    closeFile s k

/-- `n` such commands, one after the other. -/
def readTimes (r : FileRef) : Nat → Fs → Except Fault Fs
  | 0, s => .ok s
  | n + 1, s => readThrough s r >>= readTimes r n

/-- The commands print the text `msgs` each, and leave all `File` records and both disks alone. -/
def ReadsOnly (s : Fs) (r : FileRef) : Prop :=
  ∃ msgs : List String, ∀ n, ∃ s', readTimes r n s = .ok s' ∧
    (∀ q, s'.file q = s.file q) ∧ s'.sda = s.sda ∧ s'.sdb = s.sdb ∧
    s'.console = s.console ++ (List.replicate n msgs).flatten

/-- `close_file` on an entry that was opened once and has nothing staged. -/
theorem closeFile_unstaged {s : Fs} {k : Fin 10} {r : FileRef}
    (hfile : (s.activelist k).file = some r) (href : (s.activelist k).refCnt = 1)
    (hhead : (s.activelist k).head = none) :
    ∃ s', closeFile s k = .ok s' ∧ s'.sda = s.sda ∧ s'.sdb = s.sdb ∧
      (∀ q, s'.file q =
        if q = r then { s.file r with fileSize := (s.activelist k).buffsize } else s.file q) ∧
      s'.activelist = Function.update s.activelist k (closedEntry (s.activelist k)) ∧
      s'.console = s.console := by
  have hentry : (s.setActive k { s.activelist k with refCnt := 0 }).activelist k =
      { s.activelist k with refCnt := 0 } := Function.update_self ..
  rw [closeFile_last href, activeFileClose_eq (r := r) (by rw [hentry]; exact hfile), hentry,
    show ({ s.activelist k with refCnt := 0 } : ActiveFile).head = none from hhead]
  have hact : Function.update (s.setActive k { s.activelist k with refCnt := 0 }).activelist k
      (closedEntry ((s.setActive k { s.activelist k with refCnt := 0 }).activelist k)) =
      Function.update s.activelist k (closedEntry (s.activelist k)) := by
    rw [hentry]
    exact Function.update_idem ..
  refine ⟨_, rfl, ?_⟩
  cases r with
  | rootfile =>
    refine ⟨rfl, rfl, fun q => ?_, hact, rfl⟩
    cases q <;> rfl
  | slot i =>
    refine ⟨rfl, rfl, fun q => ?_, hact, rfl⟩
    cases q with
    | rootfile => rfl
    | slot j =>
      show Function.update s.filelist i _ j = _
      by_cases hj : j = i
      · subst hj
        rw [Function.update_self, if_pos rfl]
        rfl
      · rw [Function.update_of_ne hj, if_neg fun he => hj (FileRef.slot.inj he)]
        rfl

/-- What one command leaves: the file has lost its size, and its entry in the table is free. -/
theorem readThrough_eq {s : Fs} {r : FileRef} {K : List Nat} (hno : NotOpen s r)
    (hfree : ∃ k, (s.activelist k).refCnt = 0) (h : Readable s.sdb (s.file r).fstClus.toNat K) :
    ∃ k s', readThrough s r = .ok s' ∧ s'.sda = s.sda ∧ s'.sdb = s.sdb ∧
      (∀ q, s'.file q = if q = r then { s.file r with fileSize := 0 } else s.file q) ∧
      s'.activelist = Function.update s.activelist k (closedEntry (s.activelist k)) ∧
      s'.console = s.console ++
        ((chainText s.sdb (s.file r).fileSize.toNat 0 K).map charText ++ ["\n"]) := by
  obtain ⟨k, -, hopen⟩ := openFile_ok .readOnly hno hfree
  have hself := activeFileOpen_self s k r .readOnly
  have hfile : ((activeFileOpen s k r .readOnly).activelist k).file = some r := by rw [hself]
  have hsame : ∀ q, (activeFileOpen s k r .readOnly).file q = s.file q := fun q => by
    cases q <;> rfl
  -- the reading changes the console only
  have hread := readFile_eq hfile (by rw [hsame]; exact h)
  rw [hsame] at hread
  generalize hs1 : { activeFileOpen s k r .readOnly with
    console := (activeFileOpen s k r .readOnly).console ++
      (chainText (activeFileOpen s k r .readOnly).sdb (s.file r).fileSize.toNat 0 K).map charText ++
      ["\n"] } = s1 at hread
  have hentry : s1.activelist k = (activeFileOpen s k r .readOnly).activelist k := by
    rw [← hs1]
  have hfile1 : ∀ q, s1.file q = s.file q := fun q => by
    rw [← hsame q, ← hs1]
    cases q <;> rfl
  obtain ⟨s2, hclose, hsda, hsdb, hfiles, hact, hcons⟩ := @closeFile_unstaged s1 k r
    (by rw [hentry, hself]) (by rw [hentry, hself]) (by rw [hentry, hself])
  refine ⟨k, s2, ?_, ?_, ?_, fun q => ?_, ?_, ?_⟩
  · rw [readThrough, hopen]
    dsimp only
    rw [hread]
    exact hclose
  · rw [hsda, ← hs1]
    rfl
  · rw [hsdb, ← hs1]
    rfl
  · rw [hfiles, hfile1, hfile1, hentry, hself]
  · rw [hact, hentry, hself, ← hs1]
    exact Function.update_idem ..
  · rw [hcons, ← hs1, ← List.append_assoc]
    rfl

/-- The commands on an empty file. -/
theorem readTimes_empty {r : FileRef} {K : List Nat} (n : Nat) {s : Fs} (hno : NotOpen s r)
    (hfree : ∃ k, (s.activelist k).refCnt = 0) (h : Readable s.sdb (s.file r).fstClus.toNat K)
    (hsize : (s.file r).fileSize = 0) :
    ∃ s', readTimes r n s = .ok s' ∧ (∀ q, s'.file q = s.file q) ∧ s'.sda = s.sda ∧
      s'.sdb = s.sdb ∧ s'.console = s.console ++
        (List.replicate n ((chainText s.sdb 0 0 K).map charText ++ ["\n"])).flatten := by
  induction n generalizing s with
  | zero => exact ⟨s, rfl, fun _ => rfl, rfl, rfl, (List.append_nil _).symm⟩
  | succ n ih =>
    obtain ⟨k, s1, hrun, hsda, hsdb, hfiles, hact, hcons⟩ := readThrough_eq hno hfree h
    have hsame : ∀ q, s1.file q = s.file q := fun q => by
      rw [hfiles, ← hsize]
      split
      · next he => rw [he]
      · rfl
    have hno1 : NotOpen s1 r := fun j => by
      rw [hact]
      by_cases hj : j = k
      · subst hj
        rw [Function.update_self]
        exact (Option.some_ne_none r).symm
      · rw [Function.update_of_ne hj]
        exact hno j
    have hfree1 : (s1.activelist k).refCnt = 0 := by
      rw [hact, Function.update_self]
      rfl
    obtain ⟨s2, hrest, hfiles2, hsda2, hsdb2, hcons2⟩ := ih hno1 ⟨k, hfree1⟩
      (by rw [hsdb, hsame]; exact h) (by rw [hsame]; exact hsize)
    refine ⟨s2, ?_, fun q => (hfiles2 q).trans (hsame q), hsda2.trans hsda, hsdb2.trans hsdb, ?_⟩
    · rw [readTimes, hrun]
      exact hrest
    · rw [hcons2, hcons, hsdb, hsize, List.replicate_succ, List.flatten_cons, List.append_assoc]
      rfl

/-- **`cat` changes nothing** exactly when the file is empty: closing it stores the size 0. -/
theorem cat_changesNothing_iff {s : Fs} {r : FileRef} {K : List Nat} (hno : NotOpen s r)
    (hfree : ∃ k, (s.activelist k).refCnt = 0) (h : Readable s.sdb (s.file r).fstClus.toNat K) :
    ReadsOnly s r ↔ (s.file r).fileSize = 0 := by
  constructor
  · rintro ⟨msgs, hall⟩
    obtain ⟨s1, hrun, hfiles, -⟩ := hall 1
    obtain ⟨k, s2, hrun2, -, -, hfiles2, -⟩ := readThrough_eq hno hfree h
    rw [readTimes, hrun2] at hrun
    have heq : s2 = s1 := Except.ok.inj hrun
    rw [← hfiles r, ← heq, hfiles2, if_pos rfl]
  · intro hsize
    refine ⟨(chainText s.sdb 0 0 K).map charText ++ ["\n"], fun n => ?_⟩
    exact readTimes_empty n hno hfree h hsize

/-- An empty file can be read any number of times. -/
theorem cat_changesNothing_empty : ReadsOnly (lettersFs 0) (.slot 0) :=
  (cat_changesNothing_iff (fun k => by
    show (none : Option FileRef) ≠ some (.slot 0)
    decide) ⟨0, rfl⟩ (lettersFs_chain 0).readable).mpr rfl

/-- A file of three bytes is empty after it has been read. -/
theorem cat_forgetsSize : ∃ s', readThrough (lettersFs 3) (.slot 0) = .ok s' ∧
    ((lettersFs 3).file (.slot 0)).fileSize = 3 ∧ (s'.file (.slot 0)).fileSize = 0 := by
  obtain ⟨k, s', hrun, -, -, hfiles, -⟩ := readThrough_eq (s := lettersFs 3) (r := .slot 0)
    (fun k => by
      show (none : Option FileRef) ≠ some (.slot 0)
      decide) ⟨0, rfl⟩ (lettersFs_chain 3).readable
  refine ⟨s', hrun, rfl, ?_⟩
  rw [hfiles, if_pos rfl]

end GwOS
