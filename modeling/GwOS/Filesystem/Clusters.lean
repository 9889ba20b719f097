import GwOS.Filesystem.Walk
import GwOS.Filesystem.Integrity

/-!
# Lost clusters

A cluster is lost when its FAT entry is not zero and no live file or directory has it in its
chain. `Accounted` says that there are none.

The operations lose clusters in two ways. `write_file` cuts the chain behind the last sector
it has staged, and does not release what it cuts off. `delete_directory` without `rc` removes
a directory as if it were a file, since `is_dir_empty` never says that something is in it.

- `clusters_accounted`: along every run in which no write is shorter than the chain of its
  file or fills `buff`, and nothing live is left below what is deleted, no cluster is lost.
- `cluster_lost`: `rmdir` of a directory with a file in it.
-/

namespace GwOS

/-- The data clusters in use are those of the chains of the live nodes. -/
def Accounted (s : Fs) (f : Forest (Fin 100)) (chain : Fin 100 → List Nat) : Prop :=
  ∀ c, 2 ≤ c → c ≤ 2848 → (getFatNextCluster s.sdb c ≠ 0 ↔ ∃ i, Live s f i ∧ c ∈ chain i)

section Step

variable {s s' : Fs} {f : Forest (Fin 100)} {chain : Fin 100 → List Nat} {r : FileRef}
  {i : Fin 100}

/-- The clusters of a chain are in use in any case. -/
theorem Mounted.accounted (h : Mounted s f chain)
    (hused : ∀ c, 2 ≤ c → c ≤ 2848 → getFatNextCluster s.sdb c ≠ 0 →
      ∃ i, Live s f i ∧ c ∈ chain i) : Accounted s f chain := by
  intro c h2 hmax
  refine ⟨hused c h2 hmax, ?_⟩
  rintro ⟨i, hi, hc⟩ hzero
  exact (h.volume.chains i hi).not_free hc ⟨h2, hmax, hzero⟩

theorem lt_fatEntries_of_le {c : Nat} (hc : c ≤ 2848) : c < fatEntries := by
  unfold fatEntries
  omega

/-- A new node owns the cluster it has taken. -/
theorem Created.accounted {dir : FileRef} {node : File} {kids : Forest (Fin 100)} {c x off : Nat}
    {b : Sector} (hcr : Created s s' chain dir i node kids c x off b) (h : Mounted s f chain)
    (hacc : Accounted s f chain) (hdir : LiveRef s f dir) (hdot : ¬ IsDot node)
    (hm : Mounted s' (replaceChildren f dir (.cons i kids (childrenOf f dir)))
      (Function.update chain i [c])) :
    Accounted s' (replaceChildren f dir (.cons i kids (childrenOf f dir)))
      (Function.update chain i [c]) := by
  refine hm.accounted fun k h2 hmax hk => ?_
  by_cases hkc : k = c
  · refine ⟨i, ⟨(Created.mem_labels h hdir).mpr (.inl rfl), ?_⟩, ?_⟩
    · obtain ⟨son, sib, hnode⟩ := hcr.newNode
      rw [hnode]
      exact hdot
    · rw [Function.update_self, hkc]
      exact List.mem_singleton_self c
  · rw [hcr.touches.fat k (lt_fatEntries_of_le hmax) hkc] at hk
    obtain ⟨j, hj, hkj⟩ := (hacc k h2 hmax).mp hk
    have hji : j ≠ i := by
      have hne := h.tree.ne_of_unused (r := .slot j) hj.1 hcr.unused
      exact fun he => hne (by rw [he])
    refine ⟨j, ⟨(Created.mem_labels h hdir).mpr (.inr (.inr hj.1)), ?_⟩, ?_⟩
    · rw [IsDot, (hcr.sameNode h hj.1).1]
      exact hj.2
    · rwa [Function.update_of_ne hji]

/-- A write that needs at least as many clusters as the file has keeps all of them. -/
theorem Recut.whole {d d' : Disk} {K K' : List Nat} {n : Nat} (h : Recut d d' K K' n)
    (hlen : K.length ≤ n) : ∃ E, K' = K ++ E ∧
      ∀ x, x < fatEntries → x ∉ K' → getFatNextCluster d' x = getFatNextCluster d x := by
  obtain ⟨E, rest, happ, hE, -, hsame⟩ := h.grown
  have hrest : rest = [] := by
    have hl := congrArg List.length happ
    rw [List.length_append, List.length_append, h.length] at hl
    exact List.length_eq_zero_iff.mp (by omega)
  rw [hrest, List.append_nil] at happ
  rw [happ] at hsame
  exact ⟨E, happ.symm, hsame⟩

theorem Through.accounted {k : Fin 10} {K' : List Nat} {B : List Sector} {size : UInt32} {n : Nat}
    (ht : Through s s' k i (chain i) K' B size) (h : Mounted s f chain)
    (hacc : Accounted s f chain) (hi : Live s f i) (hcut : Recut s.sdb s'.sdb (chain i) K' n)
    (hlen : (chain i).length ≤ n) : Accounted s' f (Function.update chain i K') := by
  obtain ⟨E, hK', hsame⟩ := hcut.whole hlen
  have hlive : ∀ {j : Fin 100}, Live s f j → Live s' f j := by
    intro j hj
    refine ⟨hj.1, ?_⟩
    rw [ht.file]
    by_cases hji : j = i
    · subst hji
      rw [Function.update_self]
      exact hj.2
    · rw [Function.update_of_ne hji]
      exact hj.2
  refine (ht.mounted h hi).accounted fun c h2 hmax hc => ?_
  by_cases hcK : c ∈ K'
  · refine ⟨i, hlive hi, ?_⟩
    rwa [Function.update_self]
  · rw [hsame c (lt_fatEntries_of_le hmax) hcK] at hc
    obtain ⟨j, hj, hcj⟩ := (hacc c h2 hmax).mp hc
    have hji : j ≠ i := by
      rintro rfl
      exact hcK (by rw [hK']; exact List.mem_append_left _ hcj)
    refine ⟨j, hlive hj, ?_⟩
    rwa [Function.update_of_ne hji]

/-- A deletion that has released the chains of everything live below the node. -/
theorem Gone.accounted (hg : Gone s s' chain r (childrenOf f r) i) (h : Mounted s f chain)
    (hacc : Accounted s f chain) (hr : HasRef f r) (hi : i ∈ (childrenOf f r).tops)
    (hlive : ¬ IsDot (s.filelist i))
    (hrel : Released s'.sdb (doomed s chain i ((childrenOf f r).kidsAt i).labels))
    (hbelow : ∀ y ∈ ((childrenOf f r).kidsAt i).labels, IsDot (s.filelist y) ∨
      Named (s.filelist y)) :
    Accounted s' (replaceChildren f r ((childrenOf f r).removeTop i)) chain := by
  refine (hg.mounted h hr hi hlive).accounted fun c h2 hmax hc => ?_
  have hout : c ∉ doomed s chain i ((childrenOf f r).kidsAt i).labels := fun hm => hc (hrel c hm)
  rw [hg.touches.fat c (lt_fatEntries_of_le hmax) hout] at hc
  obtain ⟨j, hj, hcj⟩ := (hacc c h2 hmax).mp hc
  -- the owner is not in the deleted subtree, else the cluster would be free
  have hjT : j ∉ i :: ((childrenOf f r).kidsAt i).labels := by
    intro hjT
    refine hout ⟨j, hjT, ?_, hcj⟩
    rcases List.mem_cons.mp hjT with rfl | hjk
    · exact .inl rfl
    · exact .inr ((hbelow j hjk).resolve_left hj.2)
  obtain ⟨son, sib, hre⟩ := hg.unlinked.relink (q := .slot j) fun y hy => by
    rintro ⟨⟩
    exact hjT hy
  rw [Fs.file_slot, Fs.file_slot] at hre
  refine ⟨j, ⟨(Unlinked.mem_labels h.tree hr hi).mpr ⟨hj.1, hjT⟩, ?_⟩, hcj⟩
  rw [hre]
  exact hj.2

end Step

/-! ## Steps -/

/-- Tree and volume fit, no file is open, and no cluster is lost. -/
structure InOrder (s : Fs) (f : Forest (Fin 100)) (chain : Fin 100 → List Nat) : Prop where
  mounted : Mounted s f chain
  mirrored : FatMirrored s.sdb
  closed : Closed s
  root : s.rootfile.fa = none
  accounted : Accounted s f chain

/-- The operation leaves nothing behind: no name that stands for the directory itself or its
parent, no write that fills `buff` or is shorter than the chain of its file, and a deletion comes to everything live
below the node. -/
def FsOp.KeepsClusters (s : Fs) (f : Forest (Fin 100)) (chain : Fin 100 → List Nat) : FsOp → Prop
  | createEmptyFile _ filename _ _ _ | createEmptyDirectory _ filename _ _ =>
    filename ≠ dotName 1 ∧ filename ≠ dotName 2
  | writeFile file type content => (writeFile file type content).InBuffer ∧
    (chain file).length ≤ max 1 ((content.length + 511) / 512)
  | deleteFile _ file | deleteDirectory _ file false =>
    ∀ y ∈ (f.kidsAt file).labels, IsDot (s.filelist y)
  | deleteDirectory _ dir true => Swept s (f.kidsAt dir) ∧
    ∀ y ∈ (f.kidsAt dir).labels, IsDot (s.filelist y) ∨ Named (s.filelist y)
  | _ => False

/-- A call of one of the operations, or the shell command `rmdir`. -/
inductive ClusterOp where
  | call (op : FsOp)
  | rmdir (nowDir : FileRef) (path : Str)

namespace ClusterOp

def run (s : Fs) : ClusterOp → Except Fault (Bool × Fs)
  | call op => op.run s
  | rmdir nowDir path => (shellRmdir s nowDir path).map fun s => (true, s)

/-- What `rmdir` finds is neither `.` nor `..`, and nothing else is in it. -/
def Clean (s : Fs) (f : Forest (Fin 100)) (chain : Fin 100 → List Nat) : ClusterOp → Prop
  | call op => op.OnLive s f ∧ op.Supplied s chain ∧ op.HasRoom s f chain ∧
    op.KeepsClusters s f chain
  | rmdir nowDir path => HasRef f nowDir ∧ ∀ dir name i,
    locateDir s nowDir path = .ok (some (dir, name)) →
    isFileExist s dir name = .ok (some (.slot i)) →
    ¬ IsDot (s.filelist i) ∧ ∀ y ∈ (f.kidsAt i).labels, IsDot (s.filelist y)

end ClusterOp

section Run

variable {s s' : Fs} {f : Forest (Fin 100)} {chain : Fin 100 → List Nat} {r : FileRef}
  {i : Fin 100}

theorem InOrder.printf (h : InOrder s f chain) (msg : String) : InOrder (s.printf msg) f chain :=
  ⟨h.mounted.congr rfl (fun _ _ => SameNode.refl _) (Touches.refl _ ∅ ∅), h.mirrored,
    h.closed.of_rest rfl rfl, h.root, h.accounted⟩

theorem MadeNode.inOrder {dir : FileRef} {filename : Name}
    (hmade : MadeNode s s' chain dir filename) (h : InOrder s f chain) (hdir : LiveRef s f dir)
    (hname : filename ≠ dotName 1 ∧ filename ≠ dotName 2) :
    ∃ f' chain', InOrder s' f' chain' := by
  have hclosed := (hmade.keeps h.mounted h.mirrored h.closed hdir).2
  obtain ⟨i, node, kids, c, x, off, b, hcr, hfn, hused, hfa, hclus⟩ := hmade
  have hm := hcr.mounted h.mounted hdir hused hfa hclus
  have hdot : ¬ IsDot node := by
    rw [IsDot, hfn]
    exact fun hd => hd.elim hname.1 hname.2
  refine ⟨_, _, hm, hcr.touches.mirrored h.mirrored, hclosed, ?_,
    hcr.accounted h.mounted h.accounted hdir hdot hm⟩
  have hroot : (s'.file .rootfile).fa = (s.file .rootfile).fa := by
    by_cases hd : FileRef.rootfile = dir
    · subst hd
      rw [hcr.dirNode]
    · rw [hcr.keep h.mounted (q := .rootfile) trivial hd]
  exact hroot.trans h.root

theorem Removed.inOrder {ok : Bool} (hr : Removed s s' f chain r i ok) (h : InOrder s f chain)
    (href : HasRef f r) (hi : Live s f i)
    (hrel : ok = true → Released s'.sdb (doomed s chain i ((childrenOf f r).kidsAt i).labels))
    (hbelow : ∀ y ∈ ((childrenOf f r).kidsAt i).labels, IsDot (s.filelist y) ∨
      Named (s.filelist y)) :
    ∃ f', InOrder s' f' chain := by
  have hclosed := (hr.keeps h.mounted h.mirrored h.closed href hi).2
  cases hr with
  | gone hc hg =>
    refine ⟨_, hg.mounted h.mounted href hc hi.2, hg.touches.mirrored h.mirrored, hclosed, ?_,
      hg.accounted h.mounted h.accounted href hc hi.2 (hrel rfl) hbelow⟩
    obtain ⟨son, sib, hre⟩ := hg.unlinked.relink (q := .rootfile) fun _ _ => FileRef.noConfusion
    have hroot : (s'.file .rootfile).fa = (s.file .rootfile).fa := by rw [hre]
    exact hroot.trans h.root
  | absent msg hc hs =>
    subst hs
    exact ⟨f, h.printf msg⟩

/-- Deleting a node of a directory, in the two ways that are given by `rc`. -/
theorem deleteDirectory_inOrder {ok rc : Bool} (h : InOrder s f chain) (href : HasRef f r)
    (hi : Live s f i)
    (hkeep : (FsOp.deleteDirectory r i rc).KeepsClusters s f chain)
    (hrun : deleteDirectory sibFuel s r (.slot i) rc = .ok (ok, s')) :
    ∃ f', InOrder s' f' chain := by
  obtain ⟨ok', s1, hrun', hr, hrel⟩ := deleteDirectory_removed h.mounted href hi rc
  cases hrun'.symm.trans hrun
  by_cases hc : i ∈ (childrenOf f r).tops
  · have hkids := h.mounted.tree.kidsAt_child (Forest.tops_subset_labels hc)
    rw [hkids] at hrel
    refine hr.inOrder h href hi ?_ ?_
    · rw [hkids]
      refine fun hok => (hrel ?_ hok).released
      cases rc with
      | true => exact hkeep.1
      | false => exact fun y hy hn => hn.not_isDot (hkeep y hy)
    · rw [hkids]
      cases rc with
      | true => exact hkeep.2
      | false => exact fun y hy => .inl (hkeep y hy)
  · cases hr with
    | gone hc' => exact absurd hc' hc
    | absent msg _ hs =>
      subst hs
      exact ⟨f, h.printf msg⟩

/-- **One clean step** loses no cluster. -/
theorem FsOp.inOrder {op : FsOp} (h : InOrder s f chain) (hon : op.OnLive s f)
    (hsup : op.Supplied s chain) (hroom : op.HasRoom s f chain)
    (hkeep : op.KeepsClusters s f chain) (hrun : op.run s = .ok (true, s')) :
    ∃ f' chain', InOrder s' f' chain' := by
  obtain ⟨hm, hmir, hcl, hroot, hacc⟩ := h
  have h : InOrder s f chain := ⟨hm, hmir, hcl, hroot, hacc⟩
  cases op with
  | createEmptyFile dir filename attr wrtTime wrtDate =>
    obtain ⟨ok, s1, hrun', -, -, hmade⟩ := createEmptyFile_keeps hm hmir hcl hon hsup hroom
    cases hrun'.symm.trans hrun
    exact (hmade rfl).inOrder h hon hkeep
  | createEmptyDirectory dir filename wrtTime wrtDate =>
    obtain ⟨ok, s1, hrun', -, -, hmade⟩ := createEmptyDirectory_keeps hm hmir hcl hon hsup hroom
    cases hrun'.symm.trans hrun
    exact (hmade rfl).inOrder h hon hkeep
  | writeFile file type content =>
    obtain ⟨ok, s1, k, K', B, size, hrun', ht, hpost⟩ := writeFile_through hm hcl hon hsup
    cases hrun'.symm.trans hrun
    obtain ⟨⟨hmir', -⟩, hcl'⟩ := ht.keeps hm hmir hcl hon
    refine ⟨f, _, ht.mounted hm hon, hmir', hcl', ?_,
      ht.accounted hm hacc hon (hpost rfl).2 hkeep.2⟩
    rw [ht.rest]
    exact hroot
  | deleteFile dir file =>
    have hfile : GwOS.deleteDirectory sibFuel s dir (.slot file) false =
        GwOS.deleteFile s dir (.slot file) := deleteDirectory_false hm.tree hon.2.1 100 dir
    have hkeep' : (FsOp.deleteDirectory dir file false).KeepsClusters s f chain := hkeep
    obtain ⟨f', hf'⟩ := deleteDirectory_inOrder h hon.1.hasRef hon.2 hkeep' (hfile.trans hrun)
    exact ⟨f', chain, hf'⟩
  | deleteDirectory fa dir rc =>
    obtain ⟨f', hf'⟩ := deleteDirectory_inOrder h hon.1.hasRef hon.2 hkeep hrun
    exact ⟨f', chain, hf'⟩
  | writeFileFromSda => exact hkeep.elim
  | appendFile => exact hkeep.elim

/-- **One clean `rmdir`** loses no cluster, whether it finds its directory or not. -/
theorem shellRmdir_inOrder {nowDir : FileRef} {path : Str} (h : InOrder s f chain)
    (hclean : (ClusterOp.rmdir nowDir path).Clean s f chain)
    (hrun : shellRmdir s nowDir path = .ok s') : ∃ f', InOrder s' f' chain := by
  obtain ⟨href, hfound⟩ := hclean
  rw [shellRmdir] at hrun
  obtain ⟨loc, hloc, hrun⟩ := bind_eq_ok.mp hrun
  cases loc with
  | none =>
    cases hrun
    exact ⟨f, h.printf _⟩
  | some p =>
    obtain ⟨dir, name⟩ := p
    obtain ⟨file, hfile, hrun⟩ := bind_eq_ok.mp hrun
    cases file with
    | none => cases hrun
    | some file =>
      have hdir := h.mounted.tree.locateDir_hasRef h.root href hloc
      obtain ⟨i, rfl, hi⟩ := h.mounted.tree.isFileExist_child hdir hfile
      obtain ⟨hdot, hbelow⟩ := hfound dir name i hloc hfile
      obtain ⟨⟨ok, s1⟩, hdel, hrun⟩ := bind_eq_ok.mp hrun
      cases hrun
      have hkeep : (FsOp.deleteDirectory dir i false).KeepsClusters s f chain := hbelow
      obtain ⟨f', hf'⟩ := deleteDirectory_inOrder h hdir
        ⟨childrenOf_subset (Forest.tops_subset_labels hi), hdot⟩ hkeep hdel
      exact ⟨f', hf'.printf _⟩

end Run

/-! ## Runs -/

/-- A finite sequence of operations. -/
def runClusterOps : List ClusterOp → Fs → Except Fault Fs
  | [], s => .ok s
  | op :: ops, s => op.run s >>= fun r => runClusterOps ops r.2

/-- Every step of the run succeeds and is clean. -/
def CleanRun : List ClusterOp → Fs → Prop
  | [], _ => True
  | op :: ops, s =>
    (∀ f chain, Mounted s f chain → op.Clean s f chain) ∧
    ∀ r, op.run s = .ok r → r.1 = true ∧ CleanRun ops r.2

/-- **No lost clusters.** In every state of a clean run the data clusters in use are exactly
those of the chains of the live files and directories. -/
theorem clusters_accounted {ops pre : List ClusterOp} {s s' : Fs} {f : Forest (Fin 100)}
    {chain : Fin 100 → List Nat} (h : InOrder s f chain) (hrun : CleanRun ops s)
    (hpre : pre <+: ops) (hok : runClusterOps pre s = .ok s') :
    ∃ f' chain', Mounted s' f' chain' ∧ Accounted s' f' chain' := by
  induction pre generalizing ops s f chain with
  | nil =>
    cases hok
    exact ⟨f, chain, h.mounted, h.accounted⟩
  | cons op pre ih =>
    cases ops with
    | nil => exact absurd hpre.length_le (by simp)
    | cons op' ops =>
      obtain ⟨rfl, htail⟩ := List.cons_prefix_cons.mp hpre
      obtain ⟨⟨ok, s1⟩, hop, hrest⟩ := bind_eq_ok.mp hok
      obtain ⟨rfl, hrun1⟩ := hrun.2 _ hop
      have hclean := hrun.1 f chain h.mounted
      have hnext : ∃ f1 chain1, InOrder s1 f1 chain1 := by
        cases op with
        | call op =>
          obtain ⟨hon, hsup, hroom, hkeep⟩ := hclean
          exact op.inOrder h hon hsup hroom hkeep hop
        | rmdir nowDir path =>
          cases hr : shellRmdir s nowDir path with
          | error e =>
            rw [ClusterOp.run, hr] at hop
            cases hop
          | ok s2 =>
            rw [ClusterOp.run, hr] at hop
            cases hop
            obtain ⟨f1, hf1⟩ := shellRmdir_inOrder h hclean hr
            exact ⟨f1, chain, hf1⟩
      obtain ⟨f1, chain1, h1⟩ := hnext
      exact ih h1 hrun1 htail hrest

/-! ## A cluster is lost -/

theorem emptyFs_inOrder : InOrder emptyFs .nil fun _ => [] := by
  have hlive : ∀ i, ¬ Live emptyFs .nil i := fun i hi => absurd hi.1 List.not_mem_nil
  have hm : Mounted emptyFs .nil fun _ => [] :=
    ⟨⟨rfl, List.nodup_nil⟩, by decide, by decide, fun i hi => absurd hi (hlive i),
      fun i j hi => absurd hi (hlive i)⟩
  refine ⟨hm, smallVolume_mirrored _ _ _, bootedFs_closed _ _ _, rfl, hm.accounted ?_⟩
  intro c h2 hmax hc
  refine absurd ?_ hc
  by_cases h4 : 4 ≤ c
  · exact smallVolume_fat _ _ _ _ h4 hmax
  · have hc' : c = 2 ∨ c = 3 := by omega
    rcases hc' with rfl | rfl <;> decide

/-- A file is created in the root of an empty volume. -/
theorem clusters_accounted_create :
    ∃ s', runClusterOps [.call (.createEmptyFile .rootfile sampleName 0x20 0 0)] emptyFs = .ok s' ∧
      ∃ f chain, Mounted s' f chain ∧ Accounted s' f chain := by
  have hreturns : (match runClusterOps [.call (.createEmptyFile .rootfile sampleName 0x20 0 0)]
      emptyFs with
    | .ok _ => true
    | .error _ => false) = true := by decide +kernel
  have htrue : ((FsOp.createEmptyFile .rootfile sampleName 0x20 0 0).run emptyFs).toOption.map
      Prod.fst = some true := by decide +kernel
  have hclean : CleanRun [.call (.createEmptyFile .rootfile sampleName 0x20 0 0)] emptyFs := by
    refine ⟨fun f chain _ => ⟨trivial, ⟨?_, ?_⟩, Or.inl rfl, ?_⟩, fun r hr => ⟨?_, trivial⟩⟩
    · exact Finset.card_pos.mpr ⟨2, mem_freeClusters.mpr (by decide)⟩
    · exact Finset.card_pos.mpr ⟨0, mem_freeSlots.mpr rfl⟩
    · exact ⟨by decide, by decide⟩
    · rw [ClusterOp.run] at hr
      rw [hr] at htrue
      exact Option.some.inj htrue
  cases hrun : runClusterOps [.call (.createEmptyFile .rootfile sampleName 0x20 0 0)] emptyFs with
  | error e =>
    rw [hrun] at hreturns
    cases hreturns
  | ok s' =>
    exact ⟨s', rfl, clusters_accounted emptyFs_inOrder hclean (List.prefix_refl _) hrun⟩

/-- The path of the directory that has the name of the sample. -/
def samplePath : Str := List.replicate 8 0x45 ++ [0x2E] ++ List.replicate 3 0x45

/-- `rmdir` removes a directory in which there is a file: no chain has the cluster of the file any
more, and it is still marked as used. -/
theorem cluster_lost :
    InOrder emptyFs .nil (fun _ => []) ∧ ∃ s1 s2 s3,
      (ClusterOp.call (.createEmptyDirectory .rootfile sampleName 0 0)).run emptyFs =
        .ok (true, s1) ∧
      (ClusterOp.call (.createEmptyFile (.slot 0) sampleName 0x20 0 0)).run s1 = .ok (true, s2) ∧
      (ClusterOp.rmdir .rootfile samplePath).run s2 = .ok (true, s3) ∧
      s3.console.getLast? = some "Successfully deleted the directory.\n" ∧
      ∀ f chain, Mounted s3 f chain → ¬ Accounted s3 f chain := by
  have hcheck : returnsWith ((ClusterOp.call (.createEmptyDirectory .rootfile sampleName 0 0)).run
      emptyFs) (fun r1 => r1.1 && returnsWith ((ClusterOp.call
        (.createEmptyFile (.slot 0) sampleName 0x20 0 0)).run r1.2) fun r2 => r2.1 &&
          returnsWith ((ClusterOp.rmdir .rootfile samplePath).run r2.2) fun r3 => r3.1 &&
            decide (r3.2.console.getLast? = some "Successfully deleted the directory.\n" ∧
              getFatNextCluster r3.2.sdb 3 = 0xFFF ∧ r3.2.rootfile.fstSon = none)) = true := by
    decide +kernel
  obtain ⟨⟨ok1, s1⟩, hs1, htest1⟩ := returnsWith_iff.mp hcheck
  obtain ⟨rfl, hrun2⟩ := (Bool.and_eq_true _ _).mp htest1
  obtain ⟨⟨ok2, s2⟩, hs2, htest2⟩ := returnsWith_iff.mp hrun2
  obtain ⟨rfl, hrun3⟩ := (Bool.and_eq_true _ _).mp htest2
  obtain ⟨⟨ok3, s3⟩, hs3, htest3⟩ := returnsWith_iff.mp hrun3
  obtain ⟨rfl, hend⟩ := (Bool.and_eq_true _ _).mp htest3
  obtain ⟨hprinted, hused, hson⟩ := of_decide_eq_true hend
  refine ⟨emptyFs_inOrder, s1, s2, s3, hs1, hs2, hs3, hprinted, fun f chain hm hacc => ?_⟩
  -- nothing is left of the tree, so no chain can have the cluster
  obtain rfl : f = .nil := hm.tree.unique ⟨hson, List.nodup_nil⟩
  obtain ⟨i, hi, -⟩ := (hacc 3 (by decide) (by decide)).mp (by rw [hused]; decide)
  exact List.not_mem_nil hi.1

end GwOS
