import GwOS.Filesystem.Staging

/-!
# Writing a file: open, write, close

The writers leave their sectors staged and the chain long enough (`Written`);
`close_file` then moves the sectors to the disk. `writeThrough` is the sequence
of the three calls as `shell_write` makes it, and `writeThrough_ok` its
specification: the tree keeps its shape, the written file has a chain made of its
old clusters and of free ones, no other file is touched, and every staged node is
free again.
-/

namespace GwOS

/-! ## What a writer leaves -/

/-- The clusters a file with the chain `K` may use: its own and the free ones. -/
def usable (d : Disk) (K : List Nat) : Set Nat := {x | x ∈ K ∨ IsFree d x}

/-- The sectors of the free clusters. -/
def freeSectors (d : Disk) : Set Nat := {sec | ∃ e, IsFree d e ∧ sec = e + 31}

/-- The file `i`, open as entry `k`, has the chain `K'` now, and the sectors `B` are
staged for it in the nodes `N`; `size` is its new size. -/
structure Written (s s' : Fs) (k : Fin 10) (i : Fin 100) (K K' : List Nat)
    (N : List (Fin 100)) (B : List Sector) (size : UInt32) : Prop where
  chain : FileChain s'.sdb (firstClus s i) K'
  clusters : ∀ x ∈ K', x ∈ usable s.sdb K
  touches : Touches s.sdb s'.sdb (usable s.sdb K) (freeSectors s.sdb)
  active : ∃ p, s'.activelist =
    Function.update s.activelist k { s.activelist k with head := p, buffsize := size } ∧
    Staged s'.afblNodelist p N B
  nodup : N.Nodup
  nodes : ∀ x ∈ N, (s.afblNodelist x).used = false
  others : ∀ x, x ∉ N → s'.afblNodelist x = s.afblNodelist x
  short : N.length ≤ K'.length
  rest : s' = { s with
    sdb := s'.sdb
    activelist := s'.activelist
    afblNodelist := s'.afblNodelist
    console := s'.console }

/-- Growing a chain uses usable clusters. -/
theorem Grown.usable {d d' : Disk} {c : Nat} {K E : List Nat} (h : Grown d d' c K E) :
    (∀ x ∈ K ++ E, x ∈ usable d K) ∧ Touches d d' (usable d K) (freeSectors d) := by
  have hsub : ∀ x ∈ K ++ E, x ∈ GwOS.usable d K := fun x hx =>
    (List.mem_append.mp hx).imp id (h.free x)
  refine ⟨hsub, h.touches.mono hsub ?_⟩
  rintro x ⟨e, he, rfl⟩
  exact ⟨e, h.free e he, rfl⟩

/-- The state in which both writers start to stage: the node `j` is the head. -/
def headState (s : Fs) (k : Fin 10) (j : Fin 100) : Fs :=
  let s := s.setNode j { buff := Bytes.zero 512, next := none, used := true }
  s.setActive k { s.activelist k with head := some j }

section Writers

variable {s : Fs} {k : Fin 10} {i : Fin 100} {l : Nat} {Q : List Nat}

/-- Staging from the head node, for the file `i` with chain `l :: Q`. -/
theorem stageFrom_ok (bs : List Sector) (h0 : getFatNextCluster s.sdb 0 ≠ 0)
    (h1 : getFatNextCluster s.sdb 1 ≠ 0) (hK : FileChain s.sdb (firstClus s i) (l :: Q))
    {j : Fin 100} (hj : (s.afblNodelist j).used = false)
    (hneed : min (bs.length - 1) (freeNodes s).card ≤ Q.length + (freeClusters s.sdb).card) :
    ∃ ok l' now s' E P' Q' N B, stageAll bs (headState s k j) l (some j) true =
        .ok (ok, l', now, s') ∧
      StagedTo (headState s k j) s' (firstClus s i) (l :: Q) (some j) [j] E P' l' Q' N B ∧
      (ok = true → B = stagedSectors bs ∧ N.length = P'.length + 1 ∧
        P'.length = bs.length - 1 ∧ E.length = bs.length - 1 - Q.length) ∧
      (bs.length ≤ (freeNodes s).card → ok = true) := by
  generalize hs1 : headState s k j = s1
  have hsdb : s1.sdb = s.sdb := by
    rw [← hs1]
    rfl
  have hj1 : s1.afblNodelist j = { buff := Bytes.zero 512, next := none, used := true } := by
    rw [← hs1]
    exact Function.update_self ..
  have hn1 : ∀ x, x ≠ j → s1.afblNodelist x = s.afblNodelist x := by
    intro x hx
    rw [← hs1]
    exact Function.update_of_ne hx ..
  have hcard : (freeNodes s).card = (freeNodes s1).card + 1 := by
    have hset : freeNodes s1 = (freeNodes s).erase j := by
      ext x
      rw [Finset.mem_erase, mem_freeNodes, mem_freeNodes]
      by_cases hx : x = j
      · subst hx
        rw [hj1]
        simp
      · rw [hn1 x hx]
        simp [hx]
    have hpos : 0 < (freeNodes s).card := Finset.card_pos.mpr ⟨j, mem_freeNodes.mpr hj⟩
    rw [hset, Finset.card_erase_of_mem (mem_freeNodes.mpr hj)]
    omega
  have hst : Staging s1 (firstClus s i) (some j) [] l Q [] j [Bytes.zero 512] := by
    refine ⟨hsdb ▸ h0, hsdb ▸ h1, hsdb ▸ hK, ⟨rfl, ?_⟩, List.nodup_singleton j, rfl⟩
    rw [hj1]
    exact ⟨rfl, rfl, rfl⟩
  obtain ⟨ok, l', now, s', E, P', Q', N, B, hrun, hto, hok, hall⟩ := stageAll_first bs hst
    (by rw [hsdb]; omega)
  exact ⟨ok, l', now, s', E, P', Q', N, B, hrun, hto, hok, fun hle => hall (by omega)⟩

/-- What staging from the head node leaves, once the writer has set the size. -/
theorem StagedTo.written {j : Fin 100} {s' : Fs} {E P' Q' : List Nat} {l' : Nat}
    {N : List (Fin 100)} {B : List Sector}
    (h : StagedTo (headState s k j) s' (firstClus s i) (l :: Q) (some j) [j] E P' l' Q' N B)
    (hj : (s.afblNodelist j).used = false) (size : UInt32) (msgs : List String) :
    Written s { s' with
        activelist := Function.update s'.activelist k
          { s'.activelist k with buffsize := size }
        console := msgs } k i (l :: Q) (l :: Q ++ E) N B size := by
  obtain ⟨hclus, htouch⟩ := h.grown.usable
  have hact : s'.activelist = (headState s k j).activelist := by rw [h.rest]
  refine ⟨h.grown.chain, hclus, htouch, ⟨some j, ?_, h.staged⟩, h.nodup, ?_, ?_, ?_, ?_⟩
  · show Function.update s'.activelist k { s'.activelist k with buffsize := size } = _
    rw [hact]
    show Function.update (Function.update s.activelist k _) k _ = _
    rw [Function.update_idem]
    simp [headState, Fs.setActive, Fs.setNode]
  · intro x hx
    rcases h.nodes x hx with hxj | hxu
    · rw [List.mem_singleton.mp hxj]
      exact hj
    · by_cases hxj : x = j
      · rw [hxj]
        exact hj
      · have : (headState s k j).afblNodelist x = s.afblNodelist x := Function.update_of_ne hxj ..
        rwa [this] at hxu
  · intro x hx
    have hxj : x ≠ j := by
      rintro rfl
      exact hx (h.old x (List.mem_singleton_self x))
    have hkeep : (headState s k j).afblNodelist x = s.afblNodelist x := Function.update_of_ne hxj ..
    exact (h.others x hx).trans hkeep
  · have := congrArg List.length h.position
    have hs := h.short
    simp only [List.length_append, List.length_cons] at this ⊢
    omega
  · rw [h.rest]
    rfl

/-- The same when the writer gives up: the size is left as it was. -/
theorem StagedTo.unwritten {j : Fin 100} {s' : Fs} {E P' Q' : List Nat} {l' : Nat}
    {N : List (Fin 100)} {B : List Sector}
    (h : StagedTo (headState s k j) s' (firstClus s i) (l :: Q) (some j) [j] E P' l' Q' N B)
    (hj : (s.afblNodelist j).used = false) :
    Written s s' k i (l :: Q) (l :: Q ++ E) N B (s.activelist k).buffsize := by
  have hw := h.written hj (s.activelist k).buffsize s'.console
  have hsize : (s'.activelist k).buffsize = (s.activelist k).buffsize := by
    rw [h.rest]
    simp [headState, Fs.setActive, Fs.setNode]
  have hself : Function.update s'.activelist k
      { s'.activelist k with buffsize := (s.activelist k).buffsize } = s'.activelist := by
    rw [← hsize]
    exact Function.update_eq_self ..
  rwa [hself] at hw

theorem Written.truncate {s' : Fs} {K P' Q' : List Nat} {l' : Nat} {N : List (Fin 100)}
    {B : List Sector} {size : UInt32} (h : Written s s' k i K (P' ++ l' :: Q') N B size)
    (hN : N.length ≤ P'.length + 1) :
    Written s { s' with sdb := putFat s'.sdb l' 0xFFF } k i K (P' ++ [l']) N B size := by
  have hl : l' ∈ P' ++ l' :: Q' := by simp
  refine ⟨h.chain.truncate, ?_, ?_, h.active, h.nodup, h.nodes, h.others, by simpa using hN, ?_⟩
  · intro x hx
    refine h.clusters x ?_
    rcases List.mem_append.mp hx with hx | hx
    · exact List.mem_append_left _ hx
    · rw [List.mem_singleton.mp hx]
      exact hl
  · exact h.touches.trans (Touches.put _ _ (h.chain.lt_fatEntries hl) (h.clusters l' hl))
  · rw [h.rest]

/-- **`write_file_from_sda`.** -/
theorem writeFileFromSda_ok (filesize : UInt32) (hfile : (s.activelist k).file = some (.slot i))
    (hty : (s.activelist k).type ≠ .readOnly) (h0 : getFatNextCluster s.sdb 0 ≠ 0)
    (h1 : getFatNextCluster s.sdb 1 ≠ 0) (hK : FileChain s.sdb (firstClus s i) (l :: Q))
    (hfn : 0 < (freeNodes s).card)
    (hneed : min (divRoundUp512 filesize - 1) (freeNodes s).card ≤
      Q.length + (freeClusters s.sdb).card) :
    ∃ ok s' E N B size, writeFileFromSda s k filesize = .ok (ok, s') ∧
      Written s s' k i (l :: Q) (l :: Q ++ E) N B size ∧
      (ok = true → size = filesize ∧
        (divRoundUp512 filesize ≠ 0 → B = sdaSectors s 0 (divRoundUp512 filesize))) ∧
      (divRoundUp512 filesize ≤ (freeNodes s).card → ok = true) := by
  obtain ⟨j, hj, hget⟩ := getEmptyAFBLNode_ok hfn
  have hlen : (sdaSectors s 0 (divRoundUp512 filesize)).length = divRoundUp512 filesize := by
    simp [sdaSectors]
  obtain ⟨ok, l', now, s3, E, P', Q', N, B, hrun, hto, hok, hall⟩ := stageFrom_ok (k := k)
    (sdaSectors s 0 (divRoundUp512 filesize)) h0 h1 hK hj (by rw [hlen]; exact hneed)
  have hl : firstClus s i = l := hK.visits.1
  have hcopy : copyFromSda (divRoundUp512 filesize) 0 (headState s k j) (firstClus s i) (some j) =
      .ok (ok, s3) := by
    rw [copyFromSda_eq, hl]
    show (stageAll (sdaSectors s 0 _) _ _ _ true >>= _) = _
    rw [hrun]
    rfl
  have hfile' : ((headState s k j).activelist k).file = some (.slot i) := by
    simp [headState, Fs.setActive, Fs.setNode, hfile]
  have hpath : writeFileFromSda s k filesize =
      if ok then .ok (true, s3.setActive k { s3.activelist k with buffsize := filesize })
      else .ok (false, s3) := by
    rw [writeFileFromSda, if_neg hty, hget]
    dsimp only
    split
    · next hnone => cases hfile'.symm.trans hnone
    next file hsome =>
    cases hfile'.symm.trans hsome
    show (copyFromSda _ 0 (headState s k j) (firstClus s i) _ >>= _) = _
    rw [hcopy]
    cases ok <;> rfl
  cases ok with
  | true =>
    refine ⟨true, _, E, N, B, filesize, hpath, hto.written hj filesize s3.console, ?_, fun _ => rfl⟩
    intro h
    refine ⟨rfl, fun hne => ?_⟩
    rw [(hok h).1, stagedSectors, if_neg]
    intro hnil
    rw [hnil] at hlen
    exact hne hlen.symm
  | false =>
    refine ⟨false, s3, E, N, B, _, hpath, hto.unwritten hj, fun h => absurd h Bool.false_ne_true, ?_⟩
    intro hle
    exact hall (by rw [hlen]; exact hle)

/-- The prompt of `write_file` does not matter. -/
theorem Written.of_printf {msg : String} {s' : Fs} {K K' : List Nat} {N : List (Fin 100)}
    {B : List Sector} {size : UInt32} (h : Written (s.printf msg) s' k i K K' N B size) :
    Written s s' k i K K' N B size :=
  ⟨h.chain, h.clusters, h.touches, h.active, h.nodup, h.nodes, h.others, h.short, h.rest⟩

/-- `write_file` from its head node on. -/
theorem writeFile_eq {content : List UInt8} (hfit : content.length < 1000) {j : Fin 100}
    (hfile : (s.activelist k).file = some (.slot i)) (hty : (s.activelist k).type ≠ .readOnly)
    (hget : getEmptyAFBLNode s =
      (some j, s.setNode j { buff := Bytes.zero 512, next := none, used := true })) :
    writeFile s k content =
      (writeStaged content (headState (s.printf "Please enter content: \n") k j)
        ⟨0, 0, 0, Bytes.zero 512, some j, firstClus s i⟩ >>= fun r =>
        if r.1 then
          writeFatNextCluster r.2.2.sdb r.2.1.clusID 0xFFF >>= fun d =>
            .ok (true, Fs.setActive { r.2.2 with sdb := d } k
              { r.2.2.activelist k with buffsize := UInt32.ofNat r.2.1.size })
        else .ok (false, r.2.2)) := by
  have hfile' : ((headState s k j).activelist k).file = some (.slot i) := by
    simp [headState, Fs.setActive, Fs.setNode, hfile]
  rw [writeFile, if_neg hty, hget]
  dsimp only
  split
  · next hnone => cases hfile'.symm.trans hnone
  next file hsome =>
  cases hfile'.symm.trans hsome
  rw [writeStaged, store_ok hfit]
  show (writeChars content (headState (s.printf _) k j)
    ⟨0, 0, 0, Bytes.zero 512, some j, firstClus s i⟩ >>= _) = _
  cases writeChars content (headState (s.printf _) k j)
      ⟨0, 0, 0, Bytes.zero 512, some j, firstClus s i⟩ with
  | error e => rfl
  | ok r =>
    obtain ⟨ok, w, s1⟩ := r
    cases ok with
    | false => rfl
    | true =>
      simp only [bind, Except.bind, Bool.not_true, Bool.false_eq_true, if_false, if_true]
      by_cases h0 : w.id > 0
      · simp only [h0, if_true]
        cases stageBuff s1 { w with
            buff := Bytes.ofFn fun i => if w.id ≤ i then 0x00 else w.buff.get i } with
        | error e => rfl
        | ok r =>
          obtain ⟨ok, w', s2⟩ := r
          cases ok <;> rfl
      · simp only [h0, if_false]
        rfl

/-- How a successful `write_file` changes the chain `K` of its file: the chain grows by free
clusters if it is shorter than `n`, and is cut behind its first `n` clusters. -/
structure Recut (d d' : Disk) (K K' : List Nat) (n : Nat) : Prop where
  grown : ∃ E rest, K ++ E = K' ++ rest ∧ E.length = n - K.length ∧ (∀ e ∈ E, IsFree d e) ∧
    ∀ x, x < fatEntries → x ∉ K ++ E → getFatNextCluster d' x = getFatNextCluster d x
  length : K'.length = n

theorem Recut.congr {d d' d'' : Disk} {K K' : List Nat} {n : Nat} (h : Recut d d' K K' n)
    (hfat : ∀ x, x < fatEntries → getFatNextCluster d'' x = getFatNextCluster d' x) :
    Recut d d'' K K' n := by
  obtain ⟨E, rest, happ, hlen, hfree, hsame⟩ := h.grown
  exact ⟨⟨E, rest, happ, hlen, hfree, fun x hx hn => (hfat x hx).trans (hsame x hx hn)⟩, h.length⟩

/-- **`write_file`.** When it succeeds it also cuts the chain behind the last sector. -/
theorem writeFile_ok {content : List UInt8} (hfit : content.length < 1000) (hfile : (s.activelist k).file = some (.slot i))
    (hty : (s.activelist k).type ≠ .readOnly) (h0 : getFatNextCluster s.sdb 0 ≠ 0)
    (h1 : getFatNextCluster s.sdb 1 ≠ 0) (hK : FileChain s.sdb (firstClus s i) (l :: Q))
    (hfn : 0 < (freeNodes s).card)
    (hneed : min ((content.length + 511) / 512 - 1) (freeNodes s).card ≤
      Q.length + (freeClusters s.sdb).card) :
    ∃ ok s' K' N B size, writeFile s k content = .ok (ok, s') ∧
      Written s s' k i (l :: Q) K' N B size ∧
      (ok = true → size = UInt32.ofNat content.length ∧
        Recut s.sdb s'.sdb (l :: Q) K' (max 1 ((content.length + 511) / 512)) ∧
        B = stagedSectors (sectorsFrom (Bytes.zero 512) 0 content)) ∧
      ((content.length + 511) / 512 ≤ (freeNodes s).card → ok = true) := by
  obtain ⟨j, hj, hget⟩ := getEmptyAFBLNode_ok hfn
  have hlen := length_sectorsFrom content (Bytes.zero 512) 0 (by decide)
  rw [Nat.zero_add] at hlen
  generalize hS : s.printf "Please enter content: \n" = S
  have hSsdb : S.sdb = s.sdb := by
    rw [← hS]
    rfl
  have hfc : firstClus S i = firstClus s i := by
    rw [← hS]
    rfl
  have hfnS : freeNodes S = freeNodes s := by
    rw [← hS]
    rfl
  obtain ⟨ok, l', now, s3, E, P', Q', N, B, hrun, hto, hok, hall⟩ := stageFrom_ok (k := k) (s := S)
    (i := i) (sectorsFrom (Bytes.zero 512) 0 content) (hSsdb ▸ h0) (hSsdb ▸ h1)
    (by rw [hSsdb, hfc]; exact hK) (j := j) (by rw [← hS]; exact hj)
    (by rw [hlen, hfnS, hSsdb]; exact hneed)
  have hl : firstClus s i = l := hK.visits.1
  have hview := writeStaged_eq content (headState S k j)
    ⟨0, 0, 0, Bytes.zero 512, some j, firstClus s i⟩ (by decide : 0 < 512)
  rw [hl] at hview
  obtain ⟨⟨ok', w, s4⟩, hst, hr⟩ := bind_eq_ok.mp (hview.trans hrun)
  simp only [Except.ok.injEq, Prod.mk.injEq] at hr
  obtain ⟨rfl, rfl, rfl, rfl⟩ := hr
  have hpath := writeFile_eq hfit hfile hty hget
  rw [hS, hl, hst] at hpath
  have hju : (S.afblNodelist j).used = false := by
    rw [← hS]
    exact hj
  cases ok' with
  | false =>
    have hw := hto.unwritten hju
    rw [← hS] at hw
    refine ⟨false, s4, _, N, B, _, hpath, hw.of_printf, fun h => absurd h Bool.false_ne_true, ?_⟩
    intro hle
    exact hall (by rw [hlen, hfnS]; exact hle)
  | true =>
    have hlc : w.clusID ∈ l :: Q ++ E := by
      rw [hto.position]
      simp
    have hlt := hto.grown.chain.lt_fatEntries hlc
    have hw := hto.written hju (UInt32.ofNat w.size) s4.console
    rw [hto.position] at hw
    have hw' := hw.truncate (hok rfl).2.1.le
    rw [← hS] at hw'
    refine ⟨true, _, _, N, B, _, ?_, hw'.of_printf, fun _ => ⟨?_, ?_, (hok rfl).1⟩, fun _ => rfl⟩
    · rw [hpath]
      show (writeFatNextCluster s4.sdb w.clusID 0xFFF >>= _) = _
      rw [writeFat_ok _ _ (lt_trans hlt (by decide))]
      rfl
    · have hsize := writeStaged_size (by decide : 0 < 512) hst rfl
      rw [hsize]
      simp
    · obtain ⟨-, -, hP, hE⟩ := hok rfl
      rw [hlen] at hE
      refine ⟨⟨E, Q', by rw [hto.position]; simp, ?_, ?_, fun x hx hxE => ?_⟩, ?_⟩
      · rw [hE, List.length_cons]
        omega
      · rw [← hSsdb]
        exact hto.grown.free
      · have hne : w.clusID ≠ x := fun he => hxE (he ▸ hlc)
        show getFatNextCluster (putFat s4.sdb w.clusID 0xFFF) x = _
        rw [getFat_putFat_ne _ _ hlt hx hne.symm, ← hSsdb]
        exact hto.grown.touches.fat x hx hxE
      · rw [hlen] at hP
        rw [List.length_append, hP, List.length_singleton]
        omega

end Writers

/-! ## Opening and closing -/

/-- The file `r` has no entry in the open-file table. -/
def NotOpen (s : Fs) (r : FileRef) : Prop := ∀ k, (s.activelist k).file ≠ some r

/-- The entry that `active_file_open` leaves. -/
theorem activeFileOpen_self (s : Fs) (k : Fin 10) (r : FileRef) (type : FileOpenType) :
    (activeFileOpen s k r type).activelist k =
      { s.activelist k with
        file := some r, refCnt := 1, type := type, head := none, buffsize := 0 } :=
  Function.update_self ..

/-- `open_file` finds no entry to share. -/
theorem openFile_search {s : Fs} {r : FileRef} {type : FileOpenType} (hno : NotOpen s r) :
    (List.finRange 10).find? (fun k =>
      decide ((s.activelist k).file = some r ∧ (s.activelist k).type = type)) = none := by
  refine List.find?_eq_none.mpr fun k _ hk => hno k ?_
  exact (of_decide_eq_true hk).1

/-- `open_file` on a file that is not open takes a free entry. -/
theorem openFile_ok {s : Fs} {r : FileRef} (type : FileOpenType) (hno : NotOpen s r)
    (hfree : ∃ k, (s.activelist k).refCnt = 0) :
    ∃ k, (s.activelist k).refCnt = 0 ∧ openFile s r type = (some k, activeFileOpen s k r type) := by
  obtain ⟨k₀, hk₀⟩ := hfree
  obtain ⟨k, hk⟩ := Option.isSome_iff_exists.mp
    ((List.find?_isSome (p := fun k => decide ((s.activelist k).refCnt = 0))).mpr
      ⟨k₀, List.mem_finRange k₀, by simpa using hk₀⟩)
  refine ⟨k, by simpa using List.find?_some hk, ?_⟩
  unfold openFile
  rw [openFile_search hno, hk]

/-- The entry it returns was free. -/
theorem openFile_some {s s1 : Fs} {r : FileRef} {type : FileOpenType} {k : Fin 10}
    (hno : NotOpen s r) (h : openFile s r type = (some k, s1)) :
    (s.activelist k).refCnt = 0 ∧ s1 = activeFileOpen s k r type := by
  by_cases hfree : ∃ k, (s.activelist k).refCnt = 0
  · obtain ⟨k', hk', hopen⟩ := openFile_ok type hno hfree
    rw [hopen] at h
    cases h
    exact ⟨hk', rfl⟩
  · have hnone : (List.finRange 10).find? (fun k => decide ((s.activelist k).refCnt = 0)) = none :=
      List.find?_eq_none.mpr fun k _ hk => hfree ⟨k, of_decide_eq_true hk⟩
    unfold openFile at h
    rw [openFile_search hno, hnone] at h
    cases h

/-- The entry that `active_file_close` leaves. -/
def closedEntry (acfile : ActiveFile) : ActiveFile :=
  { acfile with file := none, refCnt := 0, type := .readOnly, head := none, buffsize := 0 }

/-- `active_file_close`, with its loop on the state it starts in. -/
theorem activeFileClose_eq {s : Fs} {k : Fin 10} {r : FileRef}
    (h : (s.activelist k).file = some r) : activeFileClose s k =
      let s1 := Fs.setFile { s with activeCnt := s.activeCnt - 1 } r
        { s.file r with fileSize := (s.activelist k).buffsize }
      flushNodes 101 s1 (s.file r).fstClus.toNat (s.activelist k).head >>= fun s =>
        .ok (s.setActive k (closedEntry (s.activelist k))) := by
  unfold activeFileClose
  dsimp only
  rw [h]
  cases r with
  | rootfile => rfl
  | slot i =>
    have hself : (Fs.setFile { s with activeCnt := s.activeCnt - 1 } (.slot i)
        { s.filelist i with fileSize := (s.activelist k).buffsize }).file (.slot i) =
        { s.filelist i with fileSize := (s.activelist k).buffsize } := Fs.file_setFile_self ..
    show (flushNodes 101 _ ((Fs.setFile { s with activeCnt := s.activeCnt - 1 } (.slot i)
        { s.filelist i with fileSize := (s.activelist k).buffsize }).file (.slot i)).fstClus.toNat
      _ >>= _) = _
    rw [hself]
    rfl

/-- Closing the last reference closes the entry. -/
theorem closeFile_last {s : Fs} {k : Fin 10} (href : (s.activelist k).refCnt = 1) :
    closeFile s k = activeFileClose (s.setActive k { s.activelist k with refCnt := 0 }) k := by
  have hzero : (s.activelist k).refCnt - 1 = 0 := by rw [href]; rfl
  simp only [closeFile, hzero, Fs.setActive, Function.update_self, if_true]

/-- What `close_file` leaves of a file opened once, with the sectors `B` staged in the
nodes `N`: the sectors are on the disk, in the order of the chain `K`. -/
structure Flushed (s s' : Fs) (k : Fin 10) (i : Fin 100) (K : List Nat) (N : List (Fin 100))
    (B : List Sector) : Prop where
  touches : Touches s.sdb s'.sdb ∅ (sectorsOf K)
  content : ∀ x ∈ K.zip B, s'.sdb (x.1 + 31) = x.2
  file : s'.filelist = Function.update s.filelist i
    { s.filelist i with fileSize := (s.activelist k).buffsize }
  active : s'.activelist = Function.update s.activelist k (closedEntry (s.activelist k))
  freed : ∀ j ∈ N, (s'.afblNodelist j).used = false
  others : ∀ j, j ∉ N → s'.afblNodelist j = s.afblNodelist j
  rest : s' = { s with
    sdb := s'.sdb
    filelist := s'.filelist
    activeCnt := s.activeCnt - 1
    activelist := s'.activelist
    afblNodelist := s'.afblNodelist }

/-- **`close_file`** on an entry that was opened once. -/
theorem closeFile_ok {s : Fs} {k : Fin 10} {i : Fin 100} {K : List Nat} {N : List (Fin 100)}
    {B : List Sector} (hfile : (s.activelist k).file = some (.slot i))
    (href : (s.activelist k).refCnt = 1) (hst : Staged s.afblNodelist (s.activelist k).head N B)
    (hnd : N.Nodup) (hK : FileChain s.sdb (firstClus s i) K) (hlen : N.length ≤ K.length) :
    ∃ s', closeFile s k = .ok s' ∧ Flushed s s' k i K N B := by
  have h100 : N.length < 101 := by
    have := hnd.length_le_card
    rw [Fintype.card_fin] at this
    omega
  generalize hs0 : s.setActive k { s.activelist k with refCnt := 0 } = s0
  have hact0 : s0.activelist k = { s.activelist k with refCnt := 0 } := by
    rw [← hs0]
    exact Function.update_self ..
  have hclose := activeFileClose_eq (s := s0) (k := k) (r := .slot i) (by rw [hact0]; exact hfile)
  -- the state in which the loop starts
  generalize hs1 : Fs.setFile { s0 with activeCnt := s0.activeCnt - 1 } (.slot i)
    { s0.file (.slot i) with fileSize := (s0.activelist k).buffsize } = s1 at hclose
  have hsdb : s1.sdb = s.sdb := by
    rw [← hs1, ← hs0]
    rfl
  have hnodes : s1.afblNodelist = s.afblNodelist := by
    rw [← hs1, ← hs0]
    rfl
  have hact : s1.activelist = s0.activelist := by
    rw [← hs1]
    rfl
  have hfirst : (s0.file (.slot i)).fstClus.toNat = firstClus s i := by
    rw [← hs0]
    rfl
  obtain ⟨s2, hrun, ht, hzip, hrest, hfreed, hothers⟩ := flushNodes_ok (n := 101) (s := s1)
    (hnodes ▸ hst) hnd (hsdb ▸ hK.visits) hK.range hlen h100
  rw [hact0, hfirst] at hclose
  replace hclose : activeFileClose s0 k = .ok (s2.setActive k (closedEntry (s2.activelist k))) := by
    rw [hclose]
    show (flushNodes 101 s1 (firstClus s i) (s.activelist k).head >>= _) = _
    rw [hrun]
    rfl
  rw [← hs0, ← closeFile_last href] at hclose
  have hfields : s2.filelist = s1.filelist ∧ s2.activelist = s1.activelist := by
    rw [hrest]
    exact ⟨rfl, rfl⟩
  refine ⟨_, hclose, hsdb ▸ ht, hzip, ?_, ?_, hfreed, fun j hj => ?_, ?_⟩
  · show s2.filelist = _
    rw [hfields.1, ← hs1, hact0, ← hs0]
    rfl
  · show Function.update s2.activelist k (closedEntry (s2.activelist k)) = _
    rw [hfields.2, hact, hact0, ← hs0]
    show Function.update (Function.update s.activelist k _) k _ = _
    rw [Function.update_idem]
    rfl
  · exact (hothers j hj).trans (by rw [hnodes])
  · rw [hrest, ← hs1, ← hs0]
    rfl

/-! ## The three calls together -/

/-- Open the file, write, close it: what `shell_write` does once it has found the file. -/
def writeThrough (s : Fs) (r : FileRef) (type : FileOpenType)
    (writer : Fs → Fin 10 → Except Fault (Bool × Fs)) : Except Fault (Bool × Fs) :=
  match openFile s r type with
  | (none, s) => .ok (false, s)
  | (some k, s) => do
    let (ok, s) ← writer s k
    let s ← closeFile s k
    pure (ok, s)

/-- What the three calls leave, for the file `i` with the chain `K` before and `K'`
after: the sectors `B` are in the first clusters of `K'`. -/
structure Through (s s' : Fs) (k : Fin 10) (i : Fin 100) (K K' : List Nat) (B : List Sector)
    (size : UInt32) : Prop where
  chain : FileChain s'.sdb (firstClus s i) K'
  clusters : ∀ x ∈ K', x ∈ usable s.sdb K
  touches : Touches s.sdb s'.sdb (usable s.sdb K) (freeSectors s.sdb ∪ sectorsOf K')
  content : ∀ x ∈ K'.zip B, s'.sdb (x.1 + 31) = x.2
  length : B.length ≤ K'.length
  file : s'.filelist = Function.update s.filelist i { s.filelist i with fileSize := size }
  nodes : ∀ j, (s'.afblNodelist j).used = (s.afblNodelist j).used
  active : s'.activelist = Function.update s.activelist k (closedEntry (s.activelist k))
  rest : s' = { s with
    sdb := s'.sdb
    filelist := s'.filelist
    activelist := s'.activelist
    afblNodelist := s'.afblNodelist
    console := s'.console }

/-- The state with the entry `k` closed. -/
def closedState (s : Fs) (k : Fin 10) : Fs :=
  { s with
    activeCnt := s.activeCnt - 1
    activelist := Function.update s.activelist k (closedEntry (s.activelist k)) }

/-- **Write, close**: what the writer has staged is on the disk, and the FAT is the one that the
writer has left. -/
theorem Written.close {s s2 : Fs} {k : Fin 10} {i : Fin 100} {K K' : List Nat}
    {N : List (Fin 100)} {B : List Sector} {size : UInt32} (h : Written s s2 k i K K' N B size)
    (hfile : (s.activelist k).file = some (.slot i)) (href : (s.activelist k).refCnt = 1) :
    ∃ s3, closeFile s2 k = .ok s3 ∧ Through (closedState s k) s3 k i K K' B size ∧
      ∀ x, x < fatEntries → getFatNextCluster s3.sdb x = getFatNextCluster s2.sdb x := by
  obtain ⟨p, hact, hst⟩ := h.active
  have hk2 : s2.activelist k = { s.activelist k with head := p, buffsize := size } := by
    rw [hact]
    exact Function.update_self ..
  have hfl : s2.filelist = s.filelist := by rw [h.rest]
  have hchain2 : FileChain s2.sdb (firstClus s2 i) K' := by
    rw [firstClus, hfl]
    exact h.chain
  obtain ⟨s3, hclose, hfl3⟩ := closeFile_ok (s := s2) (k := k) (i := i) (N := N) (B := B)
    (by rw [hk2]; exact hfile) (by rw [hk2]; exact href) (by rw [hk2]; exact hst) h.nodup hchain2
    h.short
  have hfat : ∀ x, x < fatEntries → getFatNextCluster s3.sdb x = getFatNextCluster s2.sdb x :=
    fun x hx => hfl3.touches.fat x hx (Set.notMem_empty x)
  refine ⟨s3, hclose, ⟨?_, h.clusters, ?_, hfl3.content, ?_, ?_, ?_, ?_, ?_⟩, hfat⟩
  · exact h.chain.congr fun x hx => hfat x (h.chain.lt_fatEntries hx)
  · exact (h.touches.mono (le_refl _) Set.subset_union_left).trans
      (hfl3.touches.mono (Set.empty_subset _) Set.subset_union_right)
  · rw [← hst.length_eq]
    exact h.short
  · rw [hfl3.file, hfl, hk2]
    rfl
  · intro j
    by_cases hj : j ∈ N
    · rw [hfl3.freed j hj]
      exact (h.nodes j hj).symm
    · rw [hfl3.others j hj, h.others j hj]
      rfl
  · rw [hfl3.active, hk2, hact]
    show Function.update (Function.update s.activelist k _) k _ =
      Function.update (Function.update s.activelist k _) k _
    rw [Function.update_idem, Function.update_idem]
    simp [closedState, closedEntry]
  · rw [hfl3.rest, h.rest]
    rfl

/-- **Open, write, close**, for any writer that stages sectors. What the writer ensures, `P`,
may speak of the FAT it leaves, which `close_file` does not change. -/
theorem writeThrough_ok {s : Fs} {i : Fin 100} {K : List Nat} {type : FileOpenType}
    {w : Fs → Fin 10 → Except Fault (Bool × Fs)} (hno : NotOpen s (.slot i))
    (hfree : ∃ k, (s.activelist k).refCnt = 0)
    {P : Bool → Disk → List Nat → List Sector → UInt32 → Prop}
    (hP : ∀ {ok d d' K' B size}, (∀ x, x < fatEntries → getFatNextCluster d' x =
      getFatNextCluster d x) → P ok d K' B size → P ok d' K' B size)
    (hwriter : ∀ k, (s.activelist k).refCnt = 0 →
      ∃ ok s2 K' N B size, w (activeFileOpen s k (.slot i) type) k = .ok (ok, s2) ∧
        Written (activeFileOpen s k (.slot i) type) s2 k i K K' N B size ∧ P ok s2.sdb K' B size) :
    ∃ ok s' k K' B size, writeThrough s (.slot i) type w = .ok (ok, s') ∧
      Through s s' k i K K' B size ∧ P ok s'.sdb K' B size := by
  obtain ⟨k, hk, hopen⟩ := openFile_ok type hno hfree
  obtain ⟨ok, s2, K', N, B, size, hrun, hw, hpost⟩ := hwriter k hk
  have hself := activeFileOpen_self s k (.slot i) type
  obtain ⟨s3, hclose, ht, hfat⟩ := hw.close (by rw [hself]) (by rw [hself])
  refine ⟨ok, s3, k, K', B, size, ?_, ⟨ht.chain, ht.clusters, ht.touches, ht.content, ht.length,
    ht.file, ht.nodes, ?_, ?_⟩, hP hfat hpost⟩
  · rw [writeThrough, hopen]
    show (w (activeFileOpen s k (.slot i) type) k >>= _) = _
    rw [hrun]
    show (closeFile s2 k >>= _) = _
    rw [hclose]
    rfl
  · rw [ht.active]
    simp [closedState, activeFileOpen, Fs.setActive, closedEntry]
  · rw [ht.rest]
    simp [closedState, activeFileOpen, Fs.setActive]

/-- The written file keeps its place in tree and volume. -/
theorem Through.mounted {s s' : Fs} {f : Forest (Fin 100)} {chain : Fin 100 → List Nat}
    {k : Fin 10} {i : Fin 100} {K' : List Nat} {B : List Sector} {size : UInt32}
    (h : Through s s' k i (chain i) K' B size) (hm : Mounted s f chain) (hi : Live s f i) :
    Mounted s' f (Function.update chain i K') :=
  hm.resized hi (by rw [h.rest]) h.file h.touches (fun _ hc => hc) h.chain h.clusters

end GwOS
