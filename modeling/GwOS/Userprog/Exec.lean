import GwOS.Filesystem.Concat

/-!
# Reading a program file (`userprog/exec.c`)

The reader of the ELF loader walks the FAT on its own, in the kernel.
`sysReadFile_window` is its specification for any window of a file, and
`installProgram_roundTrip` the round trip of the shell's installer: what
`write_file_from_sda` and `close_file` put on the disk is what the loader reads.
-/

namespace GwOS

/-! ## The reader -/

/-- `sys_get_fat_next_cluster`, the kernel's copy of `get_fat_next_cluster`. -/
def sysGetFatNextCluster (d : Disk) (clusID : Nat) : Nat := getFatNextCluster d clusID

/-- The inner loop of `sys_read_file`, with `n` bytes of `buff` left from index `i` on.
`true` is its `return`. -/
def readBytes (size : UInt32) (buff : Sector) : Nat → Nat → List UInt8 → Bool × List UInt8
  | 0, _, dst => (false, dst)
  | n + 1, i, dst =>
    let dst := dst ++ [buff.get i]
    if UInt32.ofNat dst.length = size then (true, dst) else readBytes size buff n (i + 1) dst

/-- The loop of `sys_read_file`; `dst` are the bytes stored so far. -/
def readClusters (d : Disk) (size : UInt32) :
    Nat → Nat → UInt32 → List UInt8 → Except Fault (Int32 × List UInt8)
  | 0, _, _, _ => .error .outOfFuel
  | n + 1, clusID, offset, dst =>
    if isEndMark clusID then .ok (-1, dst)
    else
      let buff := d (clusID + clusToSec)
      if offset ≥ 512 then
        readClusters d size n (sysGetFatNextCluster d clusID) (offset - 512) dst
      else
        match readBytes size buff (bytePerSec - offset.toNat) offset.toNat dst with
        | (true, dst) => .ok (size.toInt32, dst)
        | (false, dst) => readClusters d size n (sysGetFatNextCluster d clusID) 0 dst

/-- `sys_read_file`: the return value and the bytes stored from `dst` on. -/
def sysReadFile (s : Fs) (k : Fin 10) (offset size : UInt32) : Except Fault (Int32 × List UInt8) :=
  match (s.activelist k).file with
  | none => .error .nullDeref
  | some file => readClusters s.sdb size walkFuel (s.file file).fstClus.toNat offset []

/-! ## Its specification -/

section Reader

variable {size : UInt32} {d : Disk}

/-- The number of bytes after which the reader stops. It looks at the counter after a byte has
been stored, so a window of no bytes is one of 2^32. -/
def stopAt (size : UInt32) : Nat := if size = 0 then 2 ^ 32 else size.toNat

theorem stopAt_pos (size : UInt32) : 0 < stopAt size := by
  rw [stopAt]
  split
  · decide
  · next h => exact Nat.pos_of_ne_zero fun he => h (UInt32.toNat_inj.mp he)

theorem stopAt_of_pos (h : 0 < size.toNat) : stopAt size = size.toNat := by
  rw [stopAt, if_neg]
  rintro rfl
  exact absurd h (by decide)

/-- The test of the inner loop. -/
theorem ofNat_eq_iff {n : Nat} (h : n < stopAt size) :
    UInt32.ofNat (n + 1) = size ↔ n + 1 = stopAt size := by
  have hlt := size.toNat_lt
  have hnat : (UInt32.ofNat (n + 1)).toNat = (n + 1) % 2 ^ 32 := UInt32.toNat_ofNat'
  rw [← UInt32.toNat_inj, hnat]
  by_cases hzero : size = 0
  · have hs : size.toNat = 0 := congrArg UInt32.toNat hzero
    rw [stopAt, if_pos hzero] at h ⊢
    omega
  · rw [stopAt, if_neg hzero] at h ⊢
    omega

/-- The inner loop: all bytes of the sector, or as many as are left to be read. -/
theorem readBytes_ok {buff : Sector} {n i : Nat} {dst : List UInt8} (hdst : dst.length < stopAt size)
    (hi : i + n = 512) : readBytes size buff n i dst =
      if dst.length + n < stopAt size then (false, dst ++ (List.ofFn buff).drop i)
      else (true, dst ++ ((List.ofFn buff).drop i).take (stopAt size - dst.length)) := by
  induction n generalizing i dst with
  | zero =>
    have hnil : (List.ofFn buff).drop i = [] :=
      List.drop_eq_nil_of_le (by rw [length_ofFn_sector]; exact hi.ge)
    rw [Nat.add_zero, if_pos hdst, hnil, List.append_nil, readBytes]
  | succ n ih =>
    have hget : (List.ofFn buff).drop i = buff.get i :: (List.ofFn buff).drop (i + 1) := by
      have hlt : i < (List.ofFn buff).length := by
        rw [length_ofFn_sector]
        omega
      have hfn : (List.ofFn buff)[i] = buff ⟨i, by omega⟩ := List.getElem_ofFn _
      have hbyte : buff.get i = buff ⟨i, by omega⟩ := dif_pos _
      rw [List.drop_eq_getElem_cons hlt, hfn, hbyte]
    have hlen : (dst ++ [buff.get i]).length = dst.length + 1 := List.length_append
    have hsz := ofNat_eq_iff hdst
    rw [readBytes]
    simp only [hlen]
    by_cases heq : dst.length + 1 = stopAt size
    · rw [if_pos (hsz.mpr heq), if_neg (by omega), hget, ← heq, Nat.add_sub_cancel_left,
        List.take_succ_cons, List.take_zero]
    · rw [if_neg (mt hsz.mp heq), ih (by rw [hlen]; omega) (by omega), hlen, hget]
      by_cases hmore : dst.length + (n + 1) < stopAt size
      · rw [if_pos (by omega), if_pos hmore, List.append_assoc, List.singleton_append]
      · have hleft : stopAt size - dst.length = stopAt size - (dst.length + 1) + 1 := by omega
        rw [if_neg (by omega), if_neg hmore, hleft, List.take_succ_cons, List.append_assoc,
          List.singleton_append]

/-- What the loop returns behind `dst`, with the bytes `C` in front of it. -/
def windowResult (size : UInt32) (dst C : List UInt8) : Int32 × List UInt8 :=
  if stopAt size ≤ dst.length + C.length then
    (size.toInt32, dst ++ C.take (stopAt size - dst.length))
  else (-1, dst ++ C)

/-- All of the piece `B` is read, and more. -/
theorem windowResult_append {dst B : List UInt8} (C : List UInt8)
    (h : dst.length + B.length < stopAt size) :
    windowResult size dst (B ++ C) = windowResult size (dst ++ B) C := by
  have htake : (B ++ C).take (stopAt size - dst.length) =
      B ++ C.take (stopAt size - (dst.length + B.length)) := by
    rw [List.take_append, List.take_of_length_le (by omega), Nat.sub_sub]
  rw [windowResult, windowResult, htake, List.length_append, List.length_append, Nat.add_assoc,
    List.append_assoc, List.append_assoc]

/-- The reading ends in the piece `B`. -/
theorem windowResult_inside {dst B : List UInt8} (C : List UInt8)
    (h : stopAt size ≤ dst.length + B.length) :
    windowResult size dst (B ++ C) =
      (size.toInt32, dst ++ B.take (stopAt size - dst.length)) := by
  rw [windowResult, List.length_append, if_pos (by omega),
    List.take_append_of_le_length (by omega)]

/-- One cluster of the file. -/
theorem readClusters_step {c n : Nat} {offset : UInt32} {dst : List UInt8}
    (hstop : ¬ IsEnd c) (hdst : dst.length < stopAt size) (hoff : offset.toNat < 512) :
    readClusters d size (n + 1) c offset dst =
      if dst.length + (512 - offset.toNat) < stopAt size then
        readClusters d size n (getFatNextCluster d c) 0
          (dst ++ (List.ofFn (d (c + 31))).drop offset.toNat)
      else .ok (size.toInt32,
        dst ++ ((List.ofFn (d (c + 31))).drop offset.toNat).take (stopAt size - dst.length)) := by
  have hlt : ¬ offset ≥ 512 := by
    rw [ge_iff_le, UInt32.le_iff_toNat_le, not_le]
    exact hoff
  have hbytes := @readBytes_ok size (d (c + 31)) (512 - offset.toNat) offset.toNat dst hdst
    (by omega)
  rw [readClusters, isEndMark_eq_false hstop, if_neg Bool.false_ne_true]
  dsimp only
  rw [if_neg hlt]
  show (match readBytes size (d (c + 31)) (512 - offset.toNat) offset.toNat dst with
    | (true, dst) => _
    | (false, dst) => _) = _
  rw [hbytes]
  by_cases hmore : dst.length + (512 - offset.toNat) < stopAt size
  · rw [if_pos hmore, if_pos hmore]
    rfl
  · rw [if_neg hmore, if_neg hmore]

/-- The loop from a sector boundary on. -/
theorem readClusters_ok {c n : Nat} {K : List Nat} {dst : List UInt8}
    (hv : Chain.Visits (getFatNextCluster d) IsEnd c K) (hn : K.length < n)
    (hdst : dst.length < stopAt size) : readClusters d size n c 0 dst =
      .ok (windowResult size dst (content d K (512 * K.length))) := by
  induction K generalizing c n dst with
  | nil =>
    obtain ⟨n, rfl⟩ : ∃ m, n = m + 1 := ⟨n - 1, by rw [List.length_nil] at hn; omega⟩
    rw [readClusters, if_pos (isEndMark_iff.mpr hv), windowResult, length_content, List.length_nil,
      if_neg (by omega)]
    exact congrArg (fun l => Except.ok ((-1 : Int32), l)) (List.append_nil dst).symm
  | cons k K ih =>
    obtain ⟨rfl, hstop, hrest⟩ := hv
    obtain ⟨n, rfl⟩ : ∃ m, n = m + 1 := ⟨n - 1, by omega⟩
    rw [List.length_cons] at hn
    have hzero : (0 : UInt32).toNat = 0 := rfl
    have hC : content d (c :: K) (512 * (c :: K).length) =
        List.ofFn (d (c + 31)) ++ content d K (512 * K.length) := by
      rw [← content_cons, List.length_cons, Nat.mul_add, Nat.add_comm]
    rw [readClusters_step hstop hdst (by decide), hzero, List.drop_zero, Nat.sub_zero, hC]
    by_cases hmore : dst.length + 512 < stopAt size
    · have hin : dst.length + (List.ofFn (d (c + 31))).length < stopAt size := by
        rw [length_ofFn_sector]
        exact hmore
      rw [if_pos hmore, ih hrest (by omega) (by rw [List.length_append]; exact hin),
        windowResult_append _ hin]
    · rw [if_neg hmore, windowResult_inside _ (by rw [length_ofFn_sector]; omega)]

/-- The loop from any position on, with nothing stored so far. -/
theorem readClusters_window {c n : Nat} {K : List Nat} {offset : UInt32}
    (hv : Chain.Visits (getFatNextCluster d) IsEnd c K) (hn : K.length < n) :
    readClusters d size n c offset [] =
      .ok (windowResult size [] ((content d K (512 * K.length)).drop offset.toNat)) := by
  induction K generalizing c n offset with
  | nil =>
    obtain ⟨n, rfl⟩ : ∃ m, n = m + 1 := ⟨n - 1, by rw [List.length_nil] at hn; omega⟩
    have hnil : (content d [] (512 * ([] : List Nat).length)).drop offset.toNat = [] :=
      List.drop_nil
    rw [readClusters, if_pos (isEndMark_iff.mpr hv), hnil, windowResult,
      if_neg (by rw [List.length_nil]; exact Nat.not_le.mpr (stopAt_pos size)), List.append_nil]
  | cons k K ih =>
    obtain ⟨rfl, hstop, hrest⟩ := hv
    obtain ⟨n, rfl⟩ : ∃ m, n = m + 1 := ⟨n - 1, by omega⟩
    rw [List.length_cons] at hn
    have hC : content d (c :: K) (512 * (c :: K).length) =
        List.ofFn (d (c + 31)) ++ content d K (512 * K.length) := by
      rw [← content_cons, List.length_cons, Nat.mul_add, Nat.add_comm]
    rw [hC]
    by_cases hskip : offset ≥ 512
    · -- the window starts behind this cluster
      have hge : 512 ≤ offset.toNat := UInt32.le_iff_toNat_le.mp hskip
      have hsub : (offset - 512).toNat = offset.toNat - 512 := UInt32.toNat_sub_of_le _ _ hskip
      rw [readClusters, isEndMark_eq_false hstop, if_neg Bool.false_ne_true]
      dsimp only
      rw [if_pos hskip, List.drop_append, length_ofFn_sector,
        List.drop_eq_nil_of_le (by rw [length_ofFn_sector]; exact hge), List.nil_append, ← hsub]
      exact ih hrest (by omega)
    · have hlt : offset.toNat < 512 := by
        rw [ge_iff_le, UInt32.le_iff_toNat_le, not_le] at hskip
        exact hskip
      have hdrop : ((List.ofFn (d (c + 31))).drop offset.toNat).length = 512 - offset.toNat := by
        rw [List.length_drop, length_ofFn_sector]
      have hdst : ([] : List UInt8).length < stopAt size := stopAt_pos size
      rw [readClusters_step hstop hdst hlt,
        List.drop_append_of_le_length (by rw [length_ofFn_sector]; omega)]
      by_cases hmore : ([] : List UInt8).length + (512 - offset.toNat) < stopAt size
      · have hin : ([] : List UInt8).length + ((List.ofFn (d (c + 31))).drop offset.toNat).length <
            stopAt size := by
          rw [hdrop]
          exact hmore
        rw [if_pos hmore, readClusters_ok hrest (by omega) (by rw [List.length_append]; exact hin),
          windowResult_append _ hin]
      · rw [if_neg hmore, windowResult_inside _ (by rw [hdrop]; omega)]

theorem toInt32_small {n : UInt32} (h : n.toNat < 2 ^ 31) : n.toInt32.toInt = n.toNat :=
  BitVec.toInt_eq_toNat_of_lt (by show 2 * n.toNat < 2 ^ 32; omega)

/-- From the first byte on. -/
theorem windowResult_nil (C : List UInt8) : windowResult size [] C =
    (if stopAt size ≤ C.length then size.toInt32 else -1, C.take (stopAt size)) := by
  rw [windowResult, List.length_nil, Nat.zero_add, List.nil_append, List.nil_append, Nat.sub_zero]
  split
  · rfl
  · next h => rw [List.take_of_length_le (by omega)]

/-- `sys_read_file` on a file with the bytes `C`. -/
theorem sysReadFile_eq {s : Fs} {k : Fin 10} {r : FileRef} {K : List Nat} (offset : UInt32)
    {C : List UInt8} (hfile : (s.activelist k).file = some r)
    (hK : FileChain s.sdb (s.file r).fstClus.toNat K) (hC : C = content s.sdb K (512 * K.length)) :
    sysReadFile s k offset size = .ok
      (if stopAt size ≤ (C.drop offset.toNat).length then size.toInt32 else -1,
        (C.drop offset.toNat).take (stopAt size)) := by
  rw [sysReadFile, hfile, hC, ← windowResult_nil]
  exact readClusters_window hK.visits hK.length_lt_walkFuel

/-- **`sys_read_file`** reads the window of `size` bytes from `offset` on, if the file with the
bytes `C` has it, and else what there is of it. -/
theorem sysReadFile_window {s : Fs} {k : Fin 10} {r : FileRef} {K : List Nat} {offset : UInt32}
    {C : List UInt8} (hfile : (s.activelist k).file = some r)
    (hK : FileChain s.sdb (s.file r).fstClus.toNat K) (hC : C = content s.sdb K (512 * K.length))
    (hpos : 0 < size.toNat) (hmax : size.toNat < 2 ^ 31) :
    ∃ ret dst, sysReadFile s k offset size = .ok (ret, dst) ∧
      if offset.toNat + size.toNat ≤ C.length then
        ret.toInt = size.toNat ∧ dst = (C.drop offset.toNat).take size.toNat
      else ret = -1 ∧ dst = C.drop offset.toNat := by
  refine ⟨_, _, sysReadFile_eq offset hfile hK hC, ?_⟩
  rw [stopAt_of_pos hpos, List.length_drop]
  by_cases hin : offset.toNat + size.toNat ≤ C.length
  · rw [if_pos hin, if_pos (by omega)]
    exact ⟨toInt32_small hmax, rfl⟩
  · rw [if_neg hin, if_neg (by omega), List.take_of_length_le (by rw [List.length_drop]; omega)]
    exact ⟨rfl, rfl⟩

/-- Ten bytes from position 5 of a file of one cluster. -/
theorem sysReadFile_window_inside : ∃ ret dst,
    sysReadFile (activeFileOpen oneFileFs 0 (.slot 0) .readOnly) 0 5 10 = .ok (ret, dst) ∧
      ret.toInt = 10 := by
  have hchain : FileChain oneFileFs.sdb 2 [2] := by
    have hend : IsEnd (getFatNextCluster oneFileFs.sdb 2) := by decide
    exact ⟨⟨rfl, by decide, hend⟩, by decide, by decide⟩
  obtain ⟨C, hC⟩ := @exists_eq _ (content (activeFileOpen oneFileFs 0 (.slot 0) .readOnly).sdb [2]
    (512 * [2].length))
  have hlen : C.length = 512 := by rw [hC, length_content, List.length_singleton]
  obtain ⟨ret, dst, hread, hwindow⟩ := @sysReadFile_window 10
    (activeFileOpen oneFileFs 0 (.slot 0) .readOnly) 0 (.slot 0) [2] 5 C
    (by rw [activeFileOpen_self]) hchain hC (by decide) (by decide)
  rw [hlen, if_pos (by decide)] at hwindow
  exact ⟨ret, dst, hread, hwindow.1⟩

/-- The start of a file, whose first sectors are `B`. -/
theorem sysReadFile_ok {s : Fs} {k : Fin 10} {i : Fin 100} {K : List Nat} {B : List Sector}
    {g : Nat → UInt8} (hfile : (s.activelist k).file = some (.slot i))
    (hK : FileChain s.sdb (firstClus s i) K) (hlen : B.length ≤ K.length)
    (hB : ∀ x ∈ K.zip B, s.sdb (x.1 + 31) = x.2)
    (hg : ∀ t b, B[t]? = some b → ∀ j, j < 512 → b.get j = g (512 * t + j))
    (hpos : 0 < size.toNat) (hsize : size.toNat ≤ 512 * B.length) :
    sysReadFile s k 0 size = .ok (size.toInt32, (List.range size.toNat).map g) := by
  have hzero : (0 : UInt32).toNat = 0 := rfl
  have hbytes := byteAt_zip (g := g) (q := 0) hB
    (fun t b hb j hj => by rw [Nat.zero_add]; exact hg t b hb j hj) hlen
  have hcontent : content s.sdb K size.toNat = (List.range size.toNat).map g := by
    refine List.map_congr_left fun p hp => ?_
    have hp := List.mem_range.mp hp
    rw [hbytes p (by omega), Nat.mul_zero, Nat.zero_add]
  rw [sysReadFile, hfile]
  refine (readClusters_window hK.visits hK.length_lt_walkFuel).trans ?_
  rw [hzero, List.drop_zero, windowResult_nil, length_content, stopAt_of_pos hpos, if_pos (by omega),
    content_take _ _ (by omega), hcontent]

end Reader

/-! ## Installing a program -/

/-- Byte `n` of the program that is stored on `sda` from sector 300 on. -/
def sdaByte (s : Fs) (n : Nat) : UInt8 := (s.sda (300 + n / 512)).get (n % 512)

theorem sdaSectors_byte {s : Fs} {m t : Nat} {b : Sector} (h : (sdaSectors s 0 m)[t]? = some b)
    {j : Nat} (hj : j < 512) : b.get j = sdaByte s (512 * t + j) := by
  rw [sdaSectors, List.getElem?_map, Option.map_eq_some_iff] at h
  obtain ⟨k, hk, rfl⟩ := h
  obtain ⟨hlt, hk⟩ := List.getElem?_eq_some_iff.mp hk
  rw [List.getElem_range'] at hk
  have hdiv : (512 * t + j) / 512 = k := by omega
  have hmod : (512 * t + j) % 512 = j := by omega
  rw [sdaByte, hdiv, hmod]

/-- **Program install round trip.** -/
theorem installProgram_roundTrip {s s1 : Fs} {f : Forest (Fin 100)} {chain : Fin 100 → List Nat}
    {i : Fin 100} {k : Fin 10} {filesize : UInt32} (h : Mounted s f chain) (hi : Live s f i)
    (hpos : 0 < filesize.toNat) (hno : NotOpen s (.slot i))
    (hopen : openFile s (.slot i) .readWrite = (some k, s1))
    (hclus : (filesize.toNat + 511) / 512 ≤ (chain i).length + (freeClusters s.sdb).card)
    (hnodes : (filesize.toNat + 511) / 512 ≤ (freeNodes s).card) :
    ∃ s2 s3, writeFileFromSda s1 k filesize = .ok (true, s2) ∧ closeFile s2 k = .ok s3 ∧
      (∃ K, FileChain s3.sdb (firstClus s3 i) K) ∧
      (∀ type, ∃ k' s4, openFile s3 (.slot i) type = (some k', s4) ∧
        sysReadFile s4 k' 0 filesize =
          .ok (filesize.toInt32, (List.range filesize.toNat).map (sdaByte s))) ∧
      (s3.filelist i).fileSize = filesize ∧
      (∀ j, (s3.afblNodelist j).used = (s.afblNodelist j).used) ∧
      ∀ j, Live s f j → j ≠ i → FileChain s3.sdb (firstClus s3 j) (chain j) ∧
        ∀ c ∈ chain j, s3.sdb (c + 31) = s.sdb (c + 31) := by
  have hcnt : (freeNodes s).card ≤ 100 := by
    have := Finset.card_le_univ (freeNodes s)
    rwa [Fintype.card_fin] at this
  have hround : divRoundUp512 filesize = (filesize.toNat + 511) / 512 := by
    unfold divRoundUp512
    omega
  obtain ⟨hk, hs1⟩ := openFile_some hno hopen
  have hK := h.volume.chains i hi
  obtain ⟨l, Q, hlQ⟩ := List.exists_cons_of_ne_nil hK.nonempty
  rw [hlQ] at hK hclus
  obtain ⟨ok, s3, k', K', B, size, hrun, ht, hpost⟩ := writeThrough_ok
    (w := fun s k => writeFileFromSda s k filesize) (K := chain i) hno ⟨k, hk⟩
    (P := fun ok _ _ B size => ok = true ∧ size = filesize ∧
      B = sdaSectors s 0 (divRoundUp512 filesize)) (fun _ hp => hp) (by
      intro k _
      have hself := activeFileOpen_self s k (.slot i) .readWrite
      obtain ⟨ok, s2, E, N, B, size, hrun, hw, hok, hall⟩ := writeFileFromSda_ok
        (s := activeFileOpen s k (.slot i) .readWrite) (k := k) (i := i) filesize (by rw [hself])
        (by rw [hself]; exact FileOpenType.noConfusion) h.volume.entry0 h.volume.entry1 hK
        (show 0 < (freeNodes s).card by omega)
        (show min _ (freeNodes s).card ≤ Q.length + (freeClusters s.sdb).card by
          rw [List.length_cons] at hclus
          omega)
      have htrue : ok = true := hall (by rw [hround]; exact hnodes)
      obtain ⟨hsz, hB⟩ := hok htrue
      exact ⟨ok, s2, _, N, B, size, hrun, hlQ ▸ hw, htrue, hsz, hB (by omega)⟩)
  obtain ⟨rfl, rfl, rfl⟩ := hpost
  rw [writeThrough, hopen] at hrun
  obtain ⟨⟨ok, s2⟩, hwrite, hrun⟩ := bind_eq_ok.mp hrun
  obtain ⟨s3', hclose, hrun⟩ := bind_eq_ok.mp hrun
  cases hrun
  have hm := ht.mounted h hi
  have hfc : firstClus s3 i = firstClus s i := by
    rw [firstClus, ht.file, Function.update_self]
    rfl
  refine ⟨s2, s3, hwrite, hclose, ⟨K', hfc ▸ ht.chain⟩, ?_, ?_, ht.nodes, ?_⟩
  · intro type
    have hno3 : NotOpen s3 (.slot i) := by
      intro k''
      rw [ht.active]
      by_cases hkk : k'' = k'
      · subst hkk
        rw [Function.update_self]
        simp [closedEntry]
      · rw [Function.update_of_ne hkk]
        exact hno k''
    have hfree3 : (s3.activelist k').refCnt = 0 := by
      rw [ht.active, Function.update_self]
      rfl
    obtain ⟨k4, -, hopen4⟩ := openFile_ok type hno3 ⟨k', hfree3⟩
    refine ⟨k4, _, hopen4, ?_⟩
    have hfile4 : ((activeFileOpen s3 k4 (.slot i) type).activelist k4).file = some (.slot i) := by
      rw [activeFileOpen_self]
    refine sysReadFile_ok (K := K') hfile4 (hfc ▸ ht.chain) ht.length ht.content
      (fun t b hb j hj => sdaSectors_byte hb hj) hpos ?_
    rw [sdaSectors, List.length_map, List.length_range', hround]
    omega
  · rw [ht.file, Function.update_self]
  · intro j hj hji
    have hfcj : firstClus s3 j = firstClus s j := by
      rw [firstClus, ht.file, Function.update_of_ne hji]
      rfl
    have hKj := h.volume.chains j hj
    have hsep : ∀ c ∈ chain j, c ∉ usable s.sdb (chain i) := by
      rintro c hc (hci | hfree)
      · exact h.volume.disjoint j i hj hi hji hc hci
      · exact hKj.not_free hc hfree
    refine ⟨?_, fun c hc => ht.touches.data _ ?_ ?_⟩
    · rw [hfcj]
      exact hKj.congr fun c hc => ht.touches.fat c (hKj.lt_fatEntries hc) (hsep c hc)
    · omega
    · rintro (⟨e, he, heq⟩ | ⟨e, he, heq⟩)
      · exact hKj.not_free hc (by rwa [show c = e by omega])
      · have hce : c = e := by omega
        exact hsep c hc (hce ▸ ht.clusters e he)

/-- 600 bytes are installed in a file with one cluster. -/
theorem installProgram_roundTrip_600 :
    ∃ k s1 s2 s3, openFile oneFileFs (.slot 0) .readWrite = (some k, s1) ∧
      writeFileFromSda s1 k 600 = .ok (true, s2) ∧ closeFile s2 k = .ok s3 ∧
      (s3.filelist 0).fileSize = 600 := by
  have hfree : 0 < (freeClusters oneFileFs.sdb).card :=
    Finset.card_pos.mpr ⟨3, mem_freeClusters.mpr (by decide)⟩
  have hnodes : 1 < (freeNodes oneFileFs).card :=
    Finset.one_lt_card.mpr ⟨0, mem_freeNodes.mpr rfl, 1, mem_freeNodes.mpr rfl, by decide⟩
  have hno : NotOpen oneFileFs (.slot 0) := fun k => by simp [oneFileFs, bootedFs]
  obtain ⟨k, -, hopen⟩ := openFile_ok .readWrite hno ⟨0, rfl⟩
  have htwo : ((600 : UInt32).toNat + 511) / 512 = 2 := by decide
  -- under a name of its own, so that nothing counts the free clusters
  obtain ⟨chain, hchain⟩ : ∃ chain : Fin 100 → List Nat, (fun _ => [2]) = chain := ⟨_, rfl⟩
  have hone : (chain 0).length = 1 := by rw [← hchain, List.length_singleton]
  have hroom : ((600 : UInt32).toNat + 511) / 512 ≤ (chain 0).length + (freeClusters oneFileFs.sdb).card := by
    rw [htwo, hone]
    omega
  obtain ⟨s2, s3, hw, hc, -, -, hsize, -⟩ := installProgram_roundTrip
    (hchain ▸ oneFileFs_mounted) ⟨List.mem_cons_self .., by decide⟩ (by decide : 0 < (600 : UInt32).toNat)
    hno hopen hroom (by rw [htwo]; exact hnodes)
  exact ⟨k, _, s2, s3, hopen, hw, hc, hsize⟩

end GwOS
