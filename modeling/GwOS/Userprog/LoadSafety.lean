import GwOS.Userprog.LoadRun

/-!
# Loading and the kernel (`userprog/exec.c`)

The bounds of a segment come from the file, and `load` checks none of them.
`load_harmless_iff` says for which files and states it does no harm all the same.
-/

namespace GwOS

/-- `load` returns, and of the kernel's memory it has written page tables only. -/
def LoadHarmless (fs : Fs) (acfile : Fin 10) (s : Memory) : Prop :=
  ∃ ret s', load fs acfile ⟨s, []⟩ = .ok (ret, s') ∧ ∀ w ∈ s'.writes, w.Harmless s

section Safety

variable {fs : Fs} {acfile : Fin 10} {r : FileRef} {K : List Nat} {C : List UInt8} {s : Memory}
  {threads : List Addr} {D : Frame → Prop} {g : VPage → Frame} {L H : List VPage}

/-- It does what its steps do. -/
theorem loadHarmless_iff_run (hfile : (fs.activelist acfile).file = some r)
    (hK : FileChain fs.sdb (fs.file r).fstClus.toNat K)
    (hC : C = content fs.sdb K (512 * K.length)) :
    LoadHarmless fs acfile s ↔ HarmlessRun s ⟨s, []⟩ (loadOps C) := by
  rw [LoadHarmless, load_eq hfile hK hC]
  constructor
  · rintro ⟨ret, s', hok, hw⟩
    obtain ⟨⟨ok, s1⟩, hrun, hret⟩ := bind_eq_ok.mp hok
    cases hret
    exact ⟨_, hrun, hw⟩
  · rintro ⟨⟨ok, s1⟩, hrun, hw⟩
    refine ⟨if ok = true ∧ HasHeaders C then some (elfHeader C).eEntry else none, s1, ?_, hw⟩
    rw [hrun]
    rfl

/-- The kernel pool lies above the first two megabytes, and the directory names itself. -/
theorem Tracked.base (h : Tracked s threads D g L H) :
    SelfMapped s.toMachine ∧ 0x200 ≤ s.kernelPool.first :=
  ⟨h.managed.layout.selfMapped h.managed.active, h.managed.layout.low⟩

theorem Tracked.harmlessRun_iff (h : Tracked s threads D g L H) (hw : s.WholeSpace) (ops : List LoadOp) :
    HarmlessRun s ⟨s, []⟩ ops ↔ SafeSteps s [] ops :=
  (Loading.start h hw).harmlessRun_iff h.base.1 h.base.2 (Nat.zero_le _) nofun

/-- **When loading harms nothing**: exactly when each page that `load` comes to is mapped, or is
one of the process for which a page table is there or can be had, and each byte that it copies
goes to a page of the process that is mapped by then. -/
theorem load_harmless_iff (hfile : (fs.activelist acfile).file = some r)
    (hK : FileChain fs.sdb (fs.file r).fstClus.toNat K) (h : Tracked s threads D g L H)
    (hw : s.WholeSpace) : LoadHarmless fs acfile s ↔
      SafeSteps s [] (loadOps (content fs.sdb K (512 * K.length))) := by
  rw [loadHarmless_iff_run hfile hK rfl]
  exact h.harmlessRun_iff hw _

end Safety

/-! ## A file with one segment -/

/-- The bytes of a word in a file, the lowest first. -/
def wordBytes (w : UInt32) : List UInt8 := (List.range 4).map (wordByte w.toBitVec)

/-- The headers of a program with one segment. -/
def elfHeaders (entry vaddr offset filesz memsz : UInt32) : List UInt8 :=
  [0x7f, 0x45, 0x4c, 0x46, 1, 1, 1, 0, 0, 0, 0, 0, 0, 0, 0, 0, 2, 0, 3, 0] ++ wordBytes 1 ++
    wordBytes entry ++ wordBytes 52 ++ wordBytes 0 ++ wordBytes 0 ++
    [52, 0, 32, 0, 1, 0, 0, 0, 0, 0, 0, 0] ++ wordBytes ptLoad ++ wordBytes offset ++
    wordBytes vaddr ++ wordBytes vaddr ++ wordBytes filesz ++ wordBytes memsz ++ wordBytes 5 ++
    wordBytes 0x1000

/-- The file of `size` bytes with the headers `b`, in the cluster 2. -/
def elfFs (b : List UInt8) (size : UInt32) : Fs :=
  let file := { oneFile with fileSize := size }
  bootedFs (smallVolume (fatHead 0xFF 0x0F) (putDirEntry (Bytes.zero 512) 0 file)
    (Bytes.ofFn fun i => b.getD i 0)) (some (.slot 0)) fun i => if i = 0 then file else blankFile

/-- It is open. -/
def openElf (b : List UInt8) (size : UInt32) : Fs :=
  activeFileOpen (elfFs b size) 0 (.slot 0) .readOnly

section Elf

variable {b : List UInt8} {size : UInt32}

theorem openElf_data (b : List UInt8) (size : UInt32) :
    (openElf b size).sdb 33 = Bytes.ofFn fun i => b.getD i 0 := rfl

theorem openElf_file (b : List UInt8) (size : UInt32) :
    ((openElf b size).activelist 0).file = some (.slot 0) := by
  rw [openElf, activeFileOpen_self]

theorem openElf_chain (b : List UInt8) (size : UInt32) :
    FileChain (openElf b size).sdb ((openElf b size).file (.slot 0)).fstClus.toNat [2] := by
  have hfat : ∀ k, k < 512 → fatByte (openElf b size).sdb k = (fatHead 0xFF 0x0F).get k := by
    intro k hk
    rw [fatByte, Nat.div_eq_of_lt hk, Nat.mod_eq_of_lt hk]
    rfl
  refine ⟨⟨rfl, by decide, ?_⟩, by decide, by decide⟩
  show IsEnd (getFatNextCluster (openElf b size).sdb 2)
  rw [getFat_eq _ (by decide), hfat _ (by decide), hfat _ (by decide)]
  decide

/-- The headers come first. -/
theorem openElf_content (hb : b.length ≤ 512) (size : UInt32) : ∃ Z, Z.length + b.length = 512 ∧
    content (openElf b size).sdb [2] (512 * [2].length) = b ++ Z := by
  have hC : content (openElf b size).sdb [2] (512 * [2].length) =
      List.ofFn ((openElf b size).sdb 33) := by
    show content _ (2 :: []) (512 + 0) = _
    rw [content_cons]
    exact List.append_nil _
  have hget : ∀ i, i < 512 → ((openElf b size).sdb 33).get i = b.getD i 0 := fun i hi => by
    rw [openElf_data, Bytes.get_ofFn _ hi]
  rw [hC]
  generalize (openElf b size).sdb 33 = data at hget
  refine ⟨(List.ofFn data).drop b.length, ?_, ?_⟩
  · rw [List.length_drop, length_ofFn_sector]
    omega
  · have hfirst : (List.ofFn data).take b.length = b := by
      refine List.ext_getElem ?_ fun i hi hi' => ?_
      · rw [List.length_take, length_ofFn_sector]
        omega
      · have hlt : i < (List.ofFn data).length := by
          rw [length_ofFn_sector]
          omega
        have hfn : (List.ofFn data)[i] = data ⟨i, by omega⟩ := List.getElem_ofFn _
        have hbyte : data.get i = data ⟨i, by omega⟩ := dif_pos _
        rw [List.getElem_take, hfn, ← hbyte, hget i (by omega), List.getD_eq_getElem?_getD,
          List.getElem?_eq_getElem hi', Option.getD_some]
    have hsplit := List.take_append_drop b.length (List.ofFn data)
    rw [hfirst] at hsplit
    exact hsplit.symm

/-- `b` are the headers of a program with the segment `h`, which needs the page `v` only. -/
structure OneSegment (b : List UInt8) (h : Elf32Phdr) (v : Addr) : Prop where
  length : b.length = 84
  accepted : (elfHeader b).Accepted
  phoff : (elfHeader b).ePhoff = 52
  phnum : (elfHeader b).ePhnum = 1
  phdr : Elf32Phdr.ofBytes (b.drop 52) = h
  isLoad : h.pType = ptLoad
  pages : h.pages = [v]

/-- What `load` finds in the file. -/
theorem OneSegment.segments {h : Elf32Phdr} {v : Addr} (ho : OneSegment b h v) (Z : List UInt8) :
    HasHeaders (b ++ Z) ∧ loadSegments (b ++ Z) = [h] := by
  have hlen := ho.length
  have hhead : elfHeader (b ++ Z) = elfHeader b := by
    rw [elfHeader, elfHeader, List.take_append_of_le_length (by omega)]
  have hbytes : ((b ++ Z).drop (52 : UInt32).toNat).take 32 = b.drop 52 := by
    show ((b ++ Z).drop 52).take 32 = b.drop 52
    have hdrop : (b.drop 52).length = 32 := by rw [List.length_drop, hlen]
    rw [List.drop_append_of_le_length (by omega), List.take_append_of_le_length (by omega),
      List.take_of_length_le (by omega)]
  have h52 : (52 : UInt32).toNat = 52 := rfl
  have hheaders : programHeaders (b ++ Z) = [h] := by
    rw [programHeaders, hhead, ho.phoff, ho.phnum]
    show headersFrom (b ++ Z) 1 52 = [h]
    rw [headersFrom, if_pos (by rw [List.length_append]; omega), hbytes, ho.phdr]
    rfl
  have helf : IsElf (b ++ Z) := by
    refine ⟨?_, hhead ▸ ho.accepted⟩
    rw [List.length_append]
    omega
  refine ⟨⟨helf, ?_⟩, ?_⟩
  · rw [hheaders, hhead, ho.phnum]
    rfl
  · rw [loadSegments, if_pos helf, hheaders]
    simp [ho.isLoad]

/-- The file as a whole. -/
theorem OneSegment.content {h : Elf32Phdr} {v : Addr} (ho : OneSegment b h v) (size : UInt32) :
    ∃ C, content (openElf b size).sdb [2] (512 * [2].length) = C ∧ C.length = 512 ∧ HasHeaders C ∧
      loadSegments C = [h] ∧ loadOps C = [.page v, .copy h.pVaddr (h.copied C)] := by
  have hlen := ho.length
  obtain ⟨Z, hZ, hC⟩ := openElf_content (b := b) (by omega) size
  obtain ⟨hhas, hseg⟩ := ho.segments Z
  refine ⟨b ++ Z, hC, ?_, hhas, hseg, ?_⟩
  · rw [List.length_append]
    omega
  · rw [loadOps, hseg, List.flatMap_singleton, Elf32Phdr.ops, ho.pages]
    rfl

end Elf

/-! ## The first process -/

/-- `init` has the whole space of a process. -/
theorem InitTracked.wholeSpace {s : Memory} {threads : List Addr} {D : Frame → Prop}
    {g : VPage → Frame} {L H : List VPage} (h : InitTracked s threads D g L H) : s.WholeSpace := by
  have huser : s.UserRange s.running := h.managed.records.user _ h.managed.running
  refine ⟨?_, h.bits⟩
  -- the page of its stack is the last one that the bitmap can mark
  obtain ⟨i, hbit, hpage⟩ := (h.marks 0xbffff000 (by decide)).mp h.stack
  have hlen : (s.btmp (s.pcb s.running).bits).len = userBitmapLen := h.bits
  have hidx : i < 8 * (s.btmp (s.pcb s.running).bits).len := lt_of_bit hbit
  obtain ⟨haddr, -⟩ := huser.progVaddr_toNat hidx
  have hstart := huser.start
  have hpageNat := congrArg BitVec.toNat hpage
  rw [pageOf_toNat, pageOf_toNat] at hpageNat
  have h1 : userVaddrStart.toNat = 0x8048000 := rfl
  have h2 : userBitmapLen = 94199 := by decide
  have h3 : (0xbffff000 : Addr).toNat = 0xbffff000 := rfl
  have hal := huser.aligned
  rw [hlen, h2] at hidx
  rw [h1] at hstart
  rw [h3, show (progVaddr (s.vaddrStart .user) i).toNat = _ from haddr] at hpageNat
  apply BitVec.eq_of_toNat_eq
  show (s.pcb s.running).vaddrStart.toNat = _
  rw [h1]
  unfold pgSize at *
  omega

/-- A page is one of 4096 bytes. -/
theorem pageOf_add {v : Addr} {p : Nat} (h : v.toNat % 4096 + p < 4096) :
    pageOf (v + BitVec.ofNat 32 p) = pageOf v := by
  have hv := v.isLt
  apply BitVec.eq_of_toNat_eq
  rw [pageOf_toNat, pageOf_toNat, BitVec.toNat_add, BitVec.toNat_ofNat]
  omega

theorem length_newPages_segment (m : Machine) (v dst : Addr) (bytes : List UInt8) :
    (newPages m [.page v, .copy dst bytes]).length ≤ 1 := by
  show (LoadOp.newPage m (LoadOp.newPage m [] (.page v)) (.copy dst bytes)).length ≤ 1
  rw [LoadOp.newPage, LoadOp.newPage]
  split
  · exact Nat.zero_le 1
  · exact Nat.le_refl 1

/-- A segment whose bytes go to one page of the process. -/
theorem safeSteps_segment {s : Memory} {v dst : Addr} {bytes : List UInt8} (hv : UserPage v)
    (htab : 0 < s.kernelPool.spare.card)
    (hpage : ∀ p < bytes.length, pageOf (dst + BitVec.ofNat 32 p) = pageOf v) :
    SafeSteps s [] [.page v, .copy dst bytes] := by
  refine safeSteps_cons.mpr ⟨fun _ => ?_, safeSteps_cons.mpr ⟨fun _ => ?_, ?_⟩⟩
  · exact .inr ⟨hv, fun _ => .inr (.inr htab)⟩
  · intro p hp
    refine ⟨low_of_pageOf (hpage p hp) hv.2, ?_⟩
    rw [newPages_snoc, LoadOp.newPage]
    split
    · next hth =>
      rcases hth with hmap | hmem | ⟨hwin, -⟩
      · exact .inl ((s.walk_eq_of_pageOf (hpage p hp)) ▸ hmap)
      · exact absurd hmem List.not_mem_nil
      · exact absurd hwin (dirIdx_ne_of_low (dirIdx_lt_of_low hv.2))
    · exact .inr (.inl (hpage p hp ▸ List.mem_append_right _ (List.mem_singleton.mpr rfl)))
  · exact fun d op rest he => absurd he (by simp)

/-- The headers of a program whose 16 bytes follow them in the file. -/
theorem goodHeaders : OneSegment (elfHeaders 0x8049000 0x8049000 84 16 16)
    ⟨ptLoad, 84, 0x8049000, 16, 16⟩ 0x8049000 :=
  ⟨by decide, by decide, by decide, by decide, rfl, by decide, by decide⟩

/-- `init` loads this program without harm. -/
theorem load_harmless_init : ∃ s, s.InitStarted ∧
    LoadHarmless (openElf (elfHeaders 0x8049000 0x8049000 84 16 16) 100) 0 s := by
  obtain ⟨s, hstarted, threads, D, g, L, H, h⟩ := init_tracked
  have hk := h.kernelPool
  obtain ⟨C, hC, hlen, -, -, hops⟩ := goodHeaders.content 100
  refine ⟨s, hstarted, ?_⟩
  rw [load_harmless_iff (openElf_file _ _) (openElf_chain _ _) h.toTracked h.wholeSpace, hC, hops]
  refine safeSteps_segment (by decide) (by omega) fun p hp => pageOf_add ?_
  have h0 : (0x8049000 : Addr).toNat % 4096 = 0 := by decide
  rw [Elf32Phdr.copied, List.length_take, List.length_drop] at hp
  show (0x8049000 : Addr).toNat % 4096 + p < 4096
  omega

/-- The headers of a program with four bytes for the page directory. -/
theorem directoryHeaders : OneSegment (elfHeaders 0x8049000 0xfffff000 84 4 4)
    ⟨ptLoad, 84, 0xfffff000, 4, 4⟩ 0xfffff000 :=
  ⟨by decide, by decide, by decide, by decide, rfl, by decide, by decide⟩

/-- The page directory can be named by a program, and it is always mapped. -/
theorem load_harms_directory : ∃ s, s.InitStarted ∧
    ¬ LoadHarmless (openElf (elfHeaders 0x8049000 0xfffff000 84 4 4) 100) 0 s := by
  obtain ⟨s, hstarted, threads, D, g, L, H, h⟩ := init_tracked
  have hu := h.userPool
  obtain ⟨C, hC, hlen, -, -, hops⟩ := directoryHeaders.content 100
  refine ⟨s, hstarted, ?_⟩
  rw [loadHarmless_iff_run (openElf_file _ _) (openElf_chain _ _) hC.symm,
    h.toTracked.harmlessRun_iff h.wholeSpace, hops]
  intro hsafe
  have hone := length_newPages_segment s.toMachine 0xfffff000 0xfffff000 []
  have hcopy := hsafe [.page 0xfffff000] _ [] rfl (Nat.le_trans hone (by omega)) 0 (by
    rw [Elf32Phdr.copied, List.length_take, List.length_drop, hlen]
    decide)
  exact absurd hcopy.1 (by decide)

end GwOS
