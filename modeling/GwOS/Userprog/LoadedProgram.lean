import GwOS.Userprog.LoadSafety

/-!
# A program in memory (`userprog/exec.c`)

`load` does not look at what `sys_read_file` returns for a segment, nor at `p_memsz`.
`load_loaded_iff` says when the program is in memory all the same after `load` has returned its
entry point.
-/

namespace GwOS

/-! ## Segments -/

namespace Elf32Phdr

/-- The number of bytes that a segment takes in memory. -/
def extent (h : Elf32Phdr) : Nat := max h.pFilesz.toNat h.pMemsz.toNat

/-- The segment lies in user space. -/
def InUser (h : Elf32Phdr) : Prop :=
  userVaddrStart ≤ h.pVaddr ∧ h.pVaddr.toNat + h.extent ≤ 0xc0000000

instance (h : Elf32Phdr) : Decidable h.InUser := inferInstanceAs (Decidable (_ ∧ _))

/-- Two segments have no byte in common. -/
def Apart (h h' : Elf32Phdr) : Prop :=
  ∀ q < h.extent, ∀ q' < h'.extent, h.pVaddr.toNat + q ≠ h'.pVaddr.toNat + q'

/-- An address in a page of the segment. -/
def HasPage (h : Elf32Phdr) (a : Addr) : Prop :=
  ∃ q < h.extent, pageOf a = pageOf (h.pVaddr + BitVec.ofNat 32 q)

end Elf32Phdr

/-- The segments `l` of a file with the bytes `C` are in memory, and nothing else of the memory
before has been written but page tables from the kernel pool. -/
structure Loaded (base : Memory) (C : List UInt8) (l : List Elf32Phdr) (s' : LoadState) : Prop where
  file : ∀ h ∈ l, ∀ p < h.pFilesz.toNat, h.pOffset.toNat + p < C.length ∧
    s'.byteAt (h.pVaddr + BitVec.ofNat 32 p) = C[h.pOffset.toNat + p]?
  zero : ∀ h ∈ l, ∀ q, h.pFilesz.toNat ≤ q → q < h.pMemsz.toNat →
    s'.byteAt (h.pVaddr + BitVec.ofNat 32 q) = some 0
  written : ∀ a, .byte a ∈ s'.writes → ∃ h ∈ l, h.HasPage a
  entries : ∀ t, .entry t ∈ s'.writes → base.kernelPool.Contains t

/-- The byte that the headers with `p_filesz = 0` leave at an address. For each of them the rest
of the file is copied. -/
def restByte (R : List UInt8) (l : List Elf32Phdr) (a : Addr) : Option UInt8 :=
  lastCopied ((l.filter fun h => h.pFilesz = 0).flatMap (Elf32Phdr.ops R)) a

/-- What makes up for what `load` does not do. `R` are the bytes of the clusters of the file, of
which `size` belong to it. -/
structure Complete (base : Memory) (size : Nat) (R : List UInt8) (l : List Elf32Phdr) : Prop where
  /-- There are frames for the page tables. -/
  tables : (newTables base.toMachine (newPages base.toMachine (l.flatMap (Elf32Phdr.ops R)))).card ≤
    base.kernelPool.spare.card
  /-- The file has the bytes of a segment. -/
  file : ∀ h ∈ l, h.pFilesz ≠ 0 → h.pOffset.toNat + h.pFilesz.toNat ≤ (R.take size).length
  /-- The rest of the file stays in the pages of the segments. -/
  rest : ∀ h ∈ l, h.pFilesz = 0 → ∀ p < (h.copied R).length,
    ∃ h' ∈ l, h'.HasPage (h.pVaddr + BitVec.ofNat 32 p)
  /-- It changes no byte of a segment that has been read before. -/
  kept : ∀ d h d', l = d ++ h :: d' → ∀ p < h.pFilesz.toNat,
    ∀ c, restByte R d' (h.pVaddr + BitVec.ofNat 32 p) = some c → R[h.pOffset.toNat + p]? = some c
  /-- A byte beyond `p_filesz` is a zero of the rest of the file, or a zero in the frame that the
  page has or gets. -/
  zero : ∀ h ∈ l, ∀ q, h.pFilesz.toNat ≤ q → q < h.pMemsz.toNat →
    ∃ f, pageFrame base (newPages base.toMachine (l.flatMap (Elf32Phdr.ops R)))
        (h.pVaddr + BitVec.ofNat 32 q) = some f ∧
      (restByte R l (h.pVaddr + BitVec.ofNat 32 q)).getD
        (pageByte (base.mem f) (h.pVaddr + BitVec.ofNat 32 q)) = 0

/-! ## The bytes of a segment -/

section Bytes

variable {h h' : Elf32Phdr} {R : List UInt8} {l : List Elf32Phdr} {a : Addr} {p q : Nat}

theorem lastCopied_pages (vs : List Addr) (a : Addr) : lastCopied (vs.map .page) a = none := by
  induction vs using List.reverseRecOn with
  | nil => rfl
  | append_singleton vs v ih =>
    rw [List.map_append, List.map_singleton, lastCopied_snoc, ih]
    rfl

theorem lastCopied_append (ops ops' : List LoadOp) (a : Addr) :
    lastCopied (ops ++ ops') a = (lastCopied ops' a).or (lastCopied ops a) := by
  induction ops' using List.reverseRecOn with
  | nil =>
    rw [List.append_nil]
    exact Option.none_or.symm
  | append_singleton ops' op ih =>
    rw [← List.append_assoc, lastCopied_snoc, lastCopied_snoc, ih, Option.or_assoc]

/-- A header puts its bytes from `p_vaddr` on. -/
theorem lastCopied_ops (R : List UInt8) (h : Elf32Phdr) (a : Addr) :
    lastCopied (h.ops R) a = (h.copied R)[(a - h.pVaddr).toNat]? := by
  rw [Elf32Phdr.ops, lastCopied_snoc, lastCopied_pages, Option.or_none]
  rfl

theorem Elf32Phdr.filesz_pos (hne : h.pFilesz ≠ 0) : 0 < h.pFilesz.toNat :=
  Nat.pos_of_ne_zero fun he => hne (UInt32.toNat_inj.mp he)

theorem Elf32Phdr.length_copied_le (hne : h.pFilesz ≠ 0) (R : List UInt8) :
    (h.copied R).length ≤ h.pFilesz.toNat := by
  rw [Elf32Phdr.copied, stopAt_of_pos (filesz_pos hne), List.length_take]
  exact Nat.min_le_left ..

/-- The byte of the file for an address of the segment. -/
theorem Elf32Phdr.copied_getElem? (R : List UInt8) (hp : p < h.pFilesz.toNat) :
    (h.copied R)[p]? = R[h.pOffset.toNat + p]? := by
  rw [Elf32Phdr.copied, stopAt_of_pos (by omega), List.getElem?_take_of_lt hp, List.getElem?_drop]

/-- Outside of the other segments only the rest of the file counts. -/
theorem lastCopied_outside (hout : ∀ h ∈ l, h.pFilesz ≠ 0 → h.pFilesz.toNat ≤ (a - h.pVaddr).toNat) :
    lastCopied (l.flatMap (Elf32Phdr.ops R)) a = restByte R l a := by
  induction l with
  | nil => rfl
  | cons h l ih =>
    have ih := ih fun h' hmem => hout h' (List.mem_cons_of_mem _ hmem)
    rw [List.flatMap_cons, lastCopied_append, ih, restByte, restByte]
    by_cases hzero : h.pFilesz = 0
    · rw [List.filter_cons_of_pos (by simpa using hzero), List.flatMap_cons, lastCopied_append]
    · have hge := hout h (List.mem_cons_self ..) hzero
      have hlen := Elf32Phdr.length_copied_le hzero R
      rw [List.filter_cons_of_neg (by simpa using hzero), lastCopied_ops,
        List.getElem?_eq_none (Nat.le_trans hlen hge), Option.or_none]

/-- The addresses of a segment do not wrap. -/
theorem Elf32Phdr.InUser.toNat (hu : h.InUser) (hq : q < h.extent) :
    (h.pVaddr + BitVec.ofNat 32 q).toNat = h.pVaddr.toNat + q := by
  have hle := hu.2
  rw [BitVec.toNat_add, BitVec.toNat_ofNat]
  omega

theorem Elf32Phdr.InUser.low (hu : h.InUser) (hq : q < h.extent) :
    h.pVaddr + BitVec.ofNat 32 q < 0xc0000000 := by
  have hle := hu.2
  have hnat := hu.toNat hq
  show (h.pVaddr + BitVec.ofNat 32 q).toNat < 0xc0000000
  omega

theorem Elf32Phdr.HasPage.low (hp : h.HasPage a) (hu : h.InUser) : a < 0xc0000000 := by
  obtain ⟨q, hq, hpage⟩ := hp
  exact low_of_pageOf hpage (hu.low hq)

/-- A byte of a segment is none that is read for another one. -/
theorem Elf32Phdr.Apart.outside (hap : h.Apart h') (hu : h.InUser) (hu' : h'.InUser) (hq : q < h.extent) :
    h'.pFilesz.toNat ≤ (h.pVaddr + BitVec.ofNat 32 q - h'.pVaddr).toNat := by
  by_contra hlt
  have hlt' : (h.pVaddr + BitVec.ofNat 32 q - h'.pVaddr).toNat < h'.extent :=
    Nat.lt_of_lt_of_le (Nat.not_le.mp hlt) (Nat.le_max_left ..)
  have hnat := hu'.toNat hlt'
  rw [add_ofNat_sub, hu.toNat hq] at hnat
  exact hap q hq _ hlt' hnat

theorem Elf32Phdr.Apart.symm (hap : h.Apart h') : h'.Apart h :=
  fun q hq q' hq' he => hap q' hq' q hq he.symm

/-- A byte beyond `p_filesz` is read for no segment. -/
theorem outside_of_bss (hu : ∀ h ∈ l, h.InUser) (hap : l.Pairwise Elf32Phdr.Apart) (hmem : h ∈ l)
    (hq : h.pFilesz.toNat ≤ q) (hq' : q < h.pMemsz.toNat) :
    ∀ h' ∈ l, h'.pFilesz ≠ 0 →
      h'.pFilesz.toNat ≤ (h.pVaddr + BitVec.ofNat 32 q - h'.pVaddr).toNat := by
  intro h' hmem' _
  have hext : q < h.extent := Nat.lt_of_lt_of_le hq' (Nat.le_max_right ..)
  by_cases he : h = h'
  · subst he
    have hmax := h.pMemsz.toNat_lt
    rw [sub_ofNat_toNat (by omega)]
    exact hq
  · have hsym : Std.Symm Elf32Phdr.Apart := ⟨fun _ _ hap => hap.symm⟩
    exact (hap.forall hmem hmem' he).outside (hu h hmem) (hu h' hmem') hext

end Bytes

/-! ## The memory after `load` -/

section Main

variable {base : Memory} {s' : LoadState} {threads : List Addr} {D : Frame → Prop} {g : VPage → Frame}
  {L H : List VPage} {done : List LoadOp} {R : List UInt8} {l d d' : List Elf32Phdr} {h : Elf32Phdr}
  {v : Addr} {p size : Nat}

theorem Loading.byteAt (hl : Loading base threads D g H done s') (hv : v < 0xc0000000) :
    s'.byteAt v = (pageFrame base (newPages base.toMachine done) v).map fun f =>
      (lastCopied done v).getD (pageByte (base.mem f) v) := by
  have hwalk := hl.walk v hv
  cases hf : pageFrame base (newPages base.toMachine done) v with
  | none =>
    rw [Machine.byteAt, hwalk, hf]
    rfl
  | some f => exact hl.bytes v hv f (hwalk.trans hf)

theorem mem_ops_copy {dst : Addr} {bytes : List UInt8} :
    LoadOp.copy dst bytes ∈ l.flatMap (Elf32Phdr.ops R) ↔
      ∃ h ∈ l, dst = h.pVaddr ∧ bytes = h.copied R := by
  simp [List.mem_flatMap, Elf32Phdr.ops]

/-- Which bytes are written outside of the segments. -/
theorem written_iff {s : LoadState} (hs : s.writes = [])
    (hrun : runLoad (l.flatMap (Elf32Phdr.ops R)) s = .ok (true, s')) :
    (∀ a, .byte a ∈ s'.writes → ∃ h ∈ l, h.HasPage a) ↔
      ∀ h ∈ l, h.pFilesz = 0 → ∀ p < (h.copied R).length,
        ∃ h' ∈ l, h'.HasPage (h.pVaddr + BitVec.ofNat 32 p) := by
  have hbyte := runLoad_byte hrun
  rw [hs] at hbyte
  constructor
  · intro hall h hmem _ p hp
    exact hall _ ((hbyte _).mpr (.inr ⟨_, _, mem_ops_copy.mpr ⟨h, hmem, rfl, rfl⟩, p, hp, rfl⟩))
  · intro hrest a ha
    obtain ⟨dst, bytes, hcopy, p, hp, rfl⟩ := ((hbyte a).mp ha).resolve_left List.not_mem_nil
    obtain ⟨h, hmem, rfl, rfl⟩ := mem_ops_copy.mp hcopy
    by_cases hzero : h.pFilesz = 0
    · exact hrest h hmem hzero p hp
    · have hlt := Nat.lt_of_lt_of_le hp (Elf32Phdr.length_copied_le hzero R)
      exact ⟨h, hmem, p, Nat.lt_of_lt_of_le hlt (Nat.le_max_left ..), rfl⟩

/-- A byte of a segment that the file has: it is in memory unless the rest of the file has been
copied over it. -/
theorem Loading.file_iff (hl : Loading base threads D g H (l.flatMap (Elf32Phdr.ops R)) s')
    (hu : ∀ h ∈ l, h.InUser) (hap : l.Pairwise Elf32Phdr.Apart) (hsplit : l = d ++ h :: d')
    (hp : p < h.pFilesz.toNat) (hfile : h.pOffset.toNat + p < (R.take size).length) :
    s'.byteAt (h.pVaddr + BitVec.ofNat 32 p) = (R.take size)[h.pOffset.toNat + p]? ↔
      ∀ c, restByte R d' (h.pVaddr + BitVec.ofNat 32 p) = some c → R[h.pOffset.toNat + p]? = some c := by
  have hmem : h ∈ l := hsplit ▸ List.mem_append_right d (List.mem_cons_self ..)
  have hext : p < h.extent := Nat.lt_of_lt_of_le hp (Nat.le_max_left ..)
  have hmax := h.pFilesz.toNat_lt
  -- the byte of the file
  rw [List.length_take] at hfile
  obtain ⟨b, hb⟩ : ∃ b, R[h.pOffset.toNat + p]? = some b :=
    ⟨_, List.getElem?_eq_getElem (show h.pOffset.toNat + p < R.length by omega)⟩
  have hown : (h.copied R)[(h.pVaddr + BitVec.ofNat 32 p - h.pVaddr).toNat]? = some b := by
    rw [sub_ofNat_toNat (by omega), Elf32Phdr.copied_getElem? R hp, hb]
  -- what follows the segment
  have hlater : lastCopied (d'.flatMap (Elf32Phdr.ops R)) (h.pVaddr + BitVec.ofNat 32 p) =
      restByte R d' (h.pVaddr + BitVec.ofNat 32 p) := by
    refine lastCopied_outside fun h' hmem' _ => ?_
    have hmem'' : h' ∈ l := hsplit ▸ List.mem_append_right d (List.mem_cons_of_mem h hmem')
    rw [hsplit, List.pairwise_append, List.pairwise_cons] at hap
    exact (hap.2.1.1 h' hmem').outside (hu h hmem) (hu h' hmem'') hext
  have hlast : lastCopied (l.flatMap (Elf32Phdr.ops R)) (h.pVaddr + BitVec.ofNat 32 p) =
      some ((restByte R d' (h.pVaddr + BitVec.ofNat 32 p)).getD b) := by
    rw [hsplit, List.flatMap_append, List.flatMap_cons, lastCopied_append, lastCopied_append, hlater,
      lastCopied_ops, hown]
    cases restByte R d' (h.pVaddr + BitVec.ofNat 32 p) with
    | none => rfl
    | some c => rfl
  obtain ⟨hlow, hmap⟩ := hl.copied (h.pVaddr + BitVec.ofNat 32 p) (hlast ▸ Option.some_ne_none _)
  obtain ⟨f, hf⟩ := Option.ne_none_iff_exists'.mp hmap
  rw [hl.bytes _ hlow f hf, hlast, List.getElem?_take_of_lt (by omega), hb]
  cases restByte R d' (h.pVaddr + BitVec.ofNat 32 p) with
  | none => simp
  | some c => simp [eq_comm]

/-- A byte beyond `p_filesz`. -/
theorem Loading.zero_iff (hl : Loading base threads D g H (l.flatMap (Elf32Phdr.ops R)) s')
    (hu : ∀ h ∈ l, h.InUser) (hap : l.Pairwise Elf32Phdr.Apart) (hmem : h ∈ l)
    (hp : h.pFilesz.toNat ≤ p) (hp' : p < h.pMemsz.toNat) :
    s'.byteAt (h.pVaddr + BitVec.ofNat 32 p) = some 0 ↔
      ∃ f, pageFrame base (newPages base.toMachine (l.flatMap (Elf32Phdr.ops R)))
          (h.pVaddr + BitVec.ofNat 32 p) = some f ∧
        (restByte R l (h.pVaddr + BitVec.ofNat 32 p)).getD
          (pageByte (base.mem f) (h.pVaddr + BitVec.ofNat 32 p)) = 0 := by
  have hlow := (hu h hmem).low (Nat.lt_of_lt_of_le hp' (Nat.le_max_right ..))
  rw [hl.byteAt hlow, lastCopied_outside (outside_of_bss hu hap hmem hp hp')]
  exact Option.map_eq_some_iff

/-- The memory as worked out holds the program exactly when nothing is missing. -/
theorem Loading.loaded_iff (hl : Loading base threads D g H (l.flatMap (Elf32Phdr.ops R)) s')
    (hu : ∀ h ∈ l, h.InUser) (hap : l.Pairwise Elf32Phdr.Apart)
    (hwritten : (∀ a, .byte a ∈ s'.writes → ∃ h ∈ l, h.HasPage a) ↔
      ∀ h ∈ l, h.pFilesz = 0 → ∀ p < (h.copied R).length,
        ∃ h' ∈ l, h'.HasPage (h.pVaddr + BitVec.ofNat 32 p)) :
    Loaded base (R.take size) l s' ↔ Complete base size R l := by
  constructor
  · rintro ⟨hfile, hzero, hw, -⟩
    refine ⟨?_, fun h hmem hne => ?_, hwritten.mp hw, fun d h d' hsplit p hp => ?_,
      fun h hmem q hq hq' => (hl.zero_iff hu hap hmem hq hq').mp (hzero h hmem q hq hq')⟩
    · have hcard := hl.kernelCard
      omega
    · have hpos := Elf32Phdr.filesz_pos hne
      have hlast := (hfile h hmem (h.pFilesz.toNat - 1) (by omega)).1
      omega
    · have hmem : h ∈ l := hsplit ▸ List.mem_append_right d (List.mem_cons_self ..)
      obtain ⟨hin, hbyte⟩ := hfile h hmem p hp
      exact (hl.file_iff hu hap hsplit hp hin).mp hbyte
  · intro hc
    refine ⟨fun h hmem p hp => ?_, fun h hmem q hq hq' => (hl.zero_iff hu hap hmem hq hq').mpr
      (hc.zero h hmem q hq hq'), hwritten.mpr hc.rest, hl.entries⟩
    have hne : h.pFilesz ≠ 0 := by
      intro he
      rw [he] at hp
      exact absurd hp (Nat.not_lt_zero p)
    have hin : h.pOffset.toNat + p < (R.take size).length := by
      have hle := hc.file h hmem hne
      omega
    obtain ⟨d, d', hsplit⟩ := List.append_of_mem hmem
    exact ⟨hin, (hl.file_iff hu hap hsplit hp hin).mpr (hc.kept d h d' hsplit p hp)⟩

/-- **What a successful `load` has loaded.** For segments in user space that do not overlap, the
program is in memory exactly when the file and the memory before make up for what `load` leaves
undone. -/
theorem load_loaded_iff {fs : Fs} {acfile : Fin 10} {r : FileRef} {K : List Nat} {s : Memory}
    {entry : Addr} (hfile : (fs.activelist acfile).file = some r)
    (hK : FileChain fs.sdb (fs.file r).fstClus.toNat K)
    (hR : R = content fs.sdb K (512 * K.length)) (ht : Tracked s threads D g L H)
    (hw : s.WholeSpace) (hu : ∀ h ∈ loadSegments R, h.InUser)
    (hap : (loadSegments R).Pairwise Elf32Phdr.Apart)
    (hload : load fs acfile ⟨s, []⟩ = .ok (some entry, s')) :
    Loaded s (R.take (fs.file r).fileSize.toNat) (loadSegments R) s' ↔
      Complete s (fs.file r).fileSize.toNat R (loadSegments R) := by
  rw [load_eq hfile hK hR] at hload
  obtain ⟨⟨ok, s1⟩, hrun, hret⟩ := bind_eq_ok.mp hload
  have hok : ok = true ∧ s1 = s' := by
    dsimp only at hret
    split at hret
    · next hb =>
      cases hret
      exact ⟨hb.1, rfl⟩
    · cases hret
  obtain ⟨rfl, rfl⟩ := hok
  have hwritten := written_iff rfl hrun
  obtain ⟨hself, hrange⟩ := ht.base
  -- what is written in the pages of the segments is written below the kernel
  have hlow : (∀ a, .byte a ∈ s1.writes → ∃ h ∈ loadSegments R, h.HasPage a) →
      ∀ dst bytes, LoadOp.copy dst bytes ∈ loadOps R →
        ∀ p < bytes.length, dst + BitVec.ofNat 32 p < 0xc0000000 := by
    intro hin dst bytes hmem p hp
    obtain ⟨h, hmem', hpage⟩ := hin _ ((runLoad_byte hrun _).mpr (.inr ⟨dst, bytes, hmem, p, hp, rfl⟩))
    exact hpage.low (hu h hmem')
  have hstart := Loading.start ht hw
  constructor
  · intro hl
    rcases hstart.run_ok hself (hlow hl.written) hrun with hloading | ⟨hmem, -⟩
    · exact (hloading.loaded_iff hu hap hwritten).mp hl
    · exact absurd (hl.entries 0 hmem) (not_harmless_zero hrange)
  · intro hc
    rcases hstart.run_ok hself (hlow (hwritten.mpr hc.rest)) hrun with hloading | ⟨-, hgt⟩
    · exact (hloading.loaded_iff hu hap hwritten).mpr hc
    · exact absurd hc.tables (Nat.not_le.mpr hgt)

end Main

/-! ## Programs for `init` -/

section Init

variable {s : Memory} {threads : List Addr} {D : Frame → Prop} {g : VPage → Frame} {L H : List VPage}
  {b : List UInt8} {h : Elf32Phdr} {v : Addr}

/-- A program of one page is loaded. -/
theorem InitTracked.load_segment (ht : InitTracked s threads D g L H) (ho : OneSegment b h v)
    (hv : UserPage v) (hpage : ∀ p < 512, pageOf (h.pVaddr + BitVec.ofNat 32 p) = pageOf v)
    (size : UInt32) : ∃ R entry s', R = content (openElf b size).sdb [2] (512 * [2].length) ∧
      R.length = 512 ∧ loadSegments R = [h] ∧
      load (openElf b size) 0 ⟨s, []⟩ = .ok (some entry, s') ∧
      Loading s threads D g H [.page v, .copy h.pVaddr (h.copied R)] s' := by
  obtain ⟨R, hR, hlen, hhas, hseg, hops⟩ := ho.content size
  have hk := ht.kernelPool
  have hu := ht.userPool
  have hone := length_newPages_segment s.toMachine v h.pVaddr (h.copied R)
  have hsafe : SafeSteps s [] [.page v, .copy h.pVaddr (h.copied R)] := by
    refine safeSteps_segment hv (by omega) fun p hp => hpage p ?_
    rw [Elf32Phdr.copied, List.length_take, List.length_drop] at hp
    omega
  obtain ⟨s', hrun, hloading⟩ := (Loading.start ht.toTracked ht.wholeSpace).run_safe ht.base.1 ht.base.2
    (fun _ hm => absurd hm List.not_mem_nil) (Nat.le_trans hone (by omega)) hsafe
  refine ⟨R, (elfHeader R).eEntry, s', hR.symm, hlen, hseg, ?_, hloading⟩
  rw [load_eq (openElf_file _ _) (openElf_chain _ _) hR.symm, hops, hrun]
  show Except.ok (if true = true ∧ HasHeaders R then some (elfHeader R).eEntry else none, s') = _
  rw [if_pos ⟨rfl, hhas⟩]

theorem card_newTables_le (m : Machine) (N : List (BitVec 20)) : (newTables m N).card ≤ N.length := by
  have hcard := List.toFinset_card_le (N.map pageDir)
  rw [List.length_map] at hcard
  exact (Finset.card_filter_le ..).trans hcard

/-- 16 bytes at `0x8049000` are loaded for `init`. -/
theorem load_loaded_init : ∃ s R entry s', s.InitStarted ∧
    R = content (openElf (elfHeaders 0x8049000 0x8049000 84 16 16) 100).sdb [2] (512 * [2].length) ∧
    load (openElf (elfHeaders 0x8049000 0x8049000 84 16 16) 100) 0 ⟨s, []⟩ = .ok (some entry, s') ∧
    Loaded s (R.take 100) (loadSegments R) s' := by
  obtain ⟨s, hstarted, threads, D, g, L, H, ht⟩ := init_tracked
  have hk := ht.kernelPool
  have h0 : (0x8049000 : Addr).toNat % 4096 = 0 := by decide
  obtain ⟨R, entry, s', hR, hlen, hseg, hload, -⟩ := ht.load_segment goodHeaders (by decide)
    (fun p hp => pageOf_add (show (0x8049000 : Addr).toNat % 4096 + p < 4096 by omega)) 100
  refine ⟨s, R, entry, s', hstarted, hR, hload, ?_⟩
  refine (load_loaded_iff (openElf_file _ _) (openElf_chain _ _) hR ht.toTracked ht.wholeSpace ?_ ?_
    hload).mpr ⟨?_, ?_, ?_, ?_, ?_⟩
  all_goals rw [hseg]
  · intro h hmem
    rw [List.mem_singleton.mp hmem]
    decide
  · exact List.pairwise_singleton ..
  · have hone := length_newPages_segment s.toMachine 0x8049000 0x8049000
      (Elf32Phdr.copied R ⟨ptLoad, 84, 0x8049000, 16, 16⟩)
    have hcard := card_newTables_le s.toMachine (newPages s.toMachine
      [.page 0x8049000, .copy 0x8049000 (Elf32Phdr.copied R ⟨ptLoad, 84, 0x8049000, 16, 16⟩)])
    exact hcard.trans (hone.trans (by omega))
  · intro h hmem _
    rw [List.mem_singleton.mp hmem, List.length_take, hlen]
    decide
  · intro h hmem hzero
    rw [List.mem_singleton.mp hmem] at hzero
    exact absurd hzero (by decide)
  · intro d h d' hsplit p _ c hc
    obtain rfl : d' = [] := by
      cases d with
      | nil => exact (List.cons_eq_cons.mp hsplit).2.symm
      | cons x d => exact absurd (List.cons_eq_cons.mp hsplit).2 (by simp)
    cases hc
  · intro h hmem q hq hq'
    rw [List.mem_singleton.mp hmem] at hq hq'
    exact absurd hq' (Nat.not_lt.mpr hq)

/-- `init` has its page of stack only. -/
theorem InitTracked.walk_eq_none (ht : InitTracked s threads D g L H) (hv : v < 0xc0000000)
    (hne : pageOf v ≠ pageOf 0xbffff000) : s.walk v = none := by
  by_contra hmap
  obtain ⟨i, hi, hpi⟩ := (ht.marks v hv).mp hmap
  obtain ⟨j, hj, hpj⟩ := (ht.marks 0xbffff000 (by decide)).mp ht.stack
  have hmem : ∀ k, (s.vaddrBitmap .user).bit k = true → k ∈ markedFrom (s.vaddrBitmap .user) 0 :=
    fun k hk => Finset.mem_filter.mpr ⟨Finset.mem_range.mpr (lt_of_bit hk), Nat.zero_le k, hk⟩
  have he := Finset.card_le_one.mp ht.marked i (hmem i hi) j (hmem j hj)
  exact hne (hpi.trans (he ▸ hpj.symm))

/-- The headers of a program of two pages, of which 16 bytes are in the file. -/
theorem bssHeaders : OneSegment (elfHeaders 0x8049000 0x8049000 84 16 0x2000)
    ⟨ptLoad, 84, 0x8049000, 16, 0x2000⟩ 0x8049000 :=
  ⟨by decide, by decide, by decide, by decide, rfl, by decide, by decide⟩

/-- The second page is not mapped when `load` returns. -/
theorem load_forgets_page : ∃ s R entry s', s.InitStarted ∧
    R = content (openElf (elfHeaders 0x8049000 0x8049000 84 16 0x2000) 100).sdb [2] (512 * [2].length) ∧
    (∀ h ∈ loadSegments R, h.InUser) ∧ (loadSegments R).Pairwise Elf32Phdr.Apart ∧
    load (openElf (elfHeaders 0x8049000 0x8049000 84 16 0x2000) 100) 0 ⟨s, []⟩ = .ok (some entry, s') ∧
    ¬ Loaded s (R.take 100) (loadSegments R) s' := by
  obtain ⟨s, hstarted, threads, D, g, L, H, ht⟩ := init_tracked
  have h0 : (0x8049000 : Addr).toNat % 4096 = 0 := by decide
  obtain ⟨R, entry, s', hR, hlen, hseg, hload, hloading⟩ := ht.load_segment bssHeaders (by decide)
    (fun p hp => pageOf_add (show (0x8049000 : Addr).toNat % 4096 + p < 4096 by omega)) 100
  refine ⟨s, R, entry, s', hstarted, hR, ?_, ?_, hload, fun hl => ?_⟩
  · rw [hseg]
    intro h hmem
    rw [List.mem_singleton.mp hmem]
    decide
  · rw [hseg]
    exact List.pairwise_singleton ..
  · have hbyte := hl.zero ⟨ptLoad, 84, 0x8049000, 16, 0x2000⟩ (hseg ▸ List.mem_singleton.mpr rfl) 0x1000
      (by decide) (by decide)
    have haddr : (0x8049000 : Addr) + BitVec.ofNat 32 0x1000 = 0x804a000 := rfl
    rw [haddr, hloading.byteAt (by decide), pageFrame, ht.walk_eq_none (by decide) (by decide)] at hbyte
    dsimp only at hbyte
    rw [if_neg] at hbyte
    · cases hbyte
    · intro hmem
      have hpage : ∀ q ∈ newPages s.toMachine [.page 0x8049000, .copy 0x8049000
          (Elf32Phdr.copied R ⟨ptLoad, 84, 0x8049000, 16, 0x2000⟩)], q = pageOf 0x8049000 := by
        show ∀ q ∈ LoadOp.newPage s.toMachine [] (.page 0x8049000), q = pageOf 0x8049000
        intro q hq
        rw [LoadOp.newPage] at hq
        split at hq
        · exact absurd hq List.not_mem_nil
        · exact List.mem_singleton.mp hq
      exact absurd (hpage _ hmem) (by decide)

end Init

end GwOS
