import GwOS.Filesystem.Shell

/-!
# What a call leaves alone

Facts about calls that return, whatever the disk and the tables hold: which nodes of the
tree and which entries of the table of open files a call can have changed. They hold for
damaged volumes as well, on which a call may read and write anywhere.
-/

namespace GwOS

/-- Nothing but the disk, the staged sectors and the console has changed. -/
structure OnlyStages (s s' : Fs) : Prop where
  rootfile : s'.rootfile = s.rootfile
  filelist : s'.filelist = s.filelist
  cnt : s'.activeCnt = s.activeCnt
  file : ∀ k, (s'.activelist k).file = (s.activelist k).file
  refCnt : ∀ k, (s'.activelist k).refCnt = (s.activelist k).refCnt
  type : ∀ k, (s'.activelist k).type = (s.activelist k).type

namespace OnlyStages

theorem refl (s : Fs) : OnlyStages s s :=
  ⟨rfl, rfl, rfl, fun _ => rfl, fun _ => rfl, fun _ => rfl⟩

theorem trans {s s' s'' : Fs} (h : OnlyStages s s') (h' : OnlyStages s' s'') : OnlyStages s s'' := by
  constructor
  · rw [h'.rootfile, h.rootfile]
  · rw [h'.filelist, h.filelist]
  · rw [h'.cnt, h.cnt]
  · intro k
    rw [h'.file, h.file]
  · intro k
    rw [h'.refCnt, h.refCnt]
  · intro k
    rw [h'.type, h.type]

/-- A write to the disk or to the nodes. -/
theorem of_disk {s : Fs} (sdb : Disk) (nodes : Fin 100 → AFBLNode) (console : List String) :
    OnlyStages s { s with sdb, afblNodelist := nodes, console } :=
  ⟨rfl, rfl, rfl, fun _ => rfl, fun _ => rfl, fun _ => rfl⟩

theorem printf (s : Fs) (msg : String) : OnlyStages s (s.printf msg) := of_disk _ _ _

/-- A write to the list of staged sectors of an entry. -/
theorem of_entry (s : Fs) (k : Fin 10) (head : Option (Fin 100)) (buffsize : UInt32) :
    OnlyStages s (s.setActive k { s.activelist k with head, buffsize }) := by
  have hself : ∀ k', ((s.setActive k { s.activelist k with head, buffsize }).activelist k').file =
        (s.activelist k').file ∧
      ((s.setActive k { s.activelist k with head, buffsize }).activelist k').refCnt =
        (s.activelist k').refCnt ∧
      ((s.setActive k { s.activelist k with head, buffsize }).activelist k').type =
        (s.activelist k').type := by
    intro k'
    by_cases hk : k' = k
    · subst hk
      simp [Fs.setActive]
    · simp [Fs.setActive, hk]
  exact ⟨rfl, rfl, rfl, fun k' => (hself k').1, fun k' => (hself k').2.1, fun k' => (hself k').2.2⟩

theorem file_eq {s s' : Fs} (h : OnlyStages s s') (r : FileRef) : s'.file r = s.file r := by
  cases r with
  | rootfile => exact h.rootfile
  | slot i => exact congrFun h.filelist i

end OnlyStages

/-! ## The writers -/

theorem getEmptyAFBLNode_onlyStages (s : Fs) : OnlyStages s (getEmptyAFBLNode s).2 := by
  rw [getEmptyAFBLNode]
  split
  · exact .of_disk _ _ _
  · exact .refl s

theorem linkNext_onlyStages (s : Fs) (c c' : Nat) (now : Option (Fin 100)) :
    Returns (linkNext s c c' now) fun r => OnlyStages s r.2.2.2 := by
  unfold linkNext
  split
  · exact .ok (.refl s)
  · split
    · exact .error _
    · next j =>
      have hget := getEmptyAFBLNode_onlyStages s
      generalize getEmptyAFBLNode s = x at hget ⊢
      obtain ⟨next, s1⟩ := x
      have hset : OnlyStages s1 (s1.setNode j { s1.afblNodelist j with next := next }) :=
        .of_disk _ _ _
      cases next <;> exact .ok (hget.trans hset)

theorem nextStage_onlyStages (s : Fs) (c : Nat) (now : Option (Fin 100)) :
    Returns (nextStage s c now) fun r => OnlyStages s r.2.2.2 := by
  unfold nextStage
  dsimp only
  split
  · refine .bind .any fun x _ => ?_
    have hd : OnlyStages s { s with sdb := x.2 } := .of_disk _ _ _
    exact (linkNext_onlyStages _ _ _ _).mono fun r hr => hd.trans hr
  · exact linkNext_onlyStages _ _ _ _

theorem initAFBLNode_onlyStages (s : Fs) (now next : Option (Fin 100)) (buff : Sector) :
    Returns (initAFBLNode s now buff next) (OnlyStages s) := by
  unfold initAFBLNode
  split
  · exact .error _
  · exact .ok (.of_disk _ _ _)

theorem stageBuff_onlyStages (s : Fs) (w : WriteLocals) :
    Returns (stageBuff s w) fun r => OnlyStages s r.2.2 := by
  -- the end of the block, in a state that only stages
  have hend : ∀ x : Bool × WriteLocals × Fs, OnlyStages s x.2.2 →
      Returns (if !x.1 then pure (false, x.2.1, x.2.2) else do
        let s ← initAFBLNode x.2.2 x.2.1.now x.2.1.buff none
        pure (true, x.2.1, s)) fun r : Bool × WriteLocals × Fs => OnlyStages s r.2.2 := by
    intro x hx
    split
    · exact .ok hx
    · exact .bind (initAFBLNode_onlyStages _ _ _ _) fun s' hs' => .ok (hx.trans hs')
  unfold stageBuff
  dsimp only
  split
  · refine .bind (nextStage_onlyStages _ _ _) fun x hx => ?_
    exact hend (x.1, { w with cnt := w.cnt + 1, clusID := x.2.1, now := x.2.2.1 }, x.2.2.2) hx
  · exact hend (true, { w with cnt := w.cnt + 1 }, s) (.refl s)

theorem writeChars_onlyStages (content : List UInt8) (s : Fs) (w : WriteLocals) :
    Returns (writeChars content s w) fun r => OnlyStages s r.2.2 := by
  induction content generalizing s w with
  | nil => exact .ok (.refl s)
  | cons c rest ih =>
    have hend : ∀ x : Bool × WriteLocals × Fs, OnlyStages s x.2.2 →
        Returns (if !x.1 then pure (false, x.2.1, x.2.2) else writeChars rest x.2.2
          { x.2.1 with id := (x.2.1.id + 1) % bytePerSec, size := x.2.1.size + 1 })
          fun r : Bool × WriteLocals × Fs => OnlyStages s r.2.2 := by
      intro x hx
      split
      · exact .ok hx
      · exact (ih _ _).mono fun r hr => hx.trans hr
    unfold writeChars
    dsimp only
    generalize (if w.id < bytePerSec then { w with buff := w.buff.set w.id c } else w) = w1
    split
    · exact .bind (stageBuff_onlyStages _ _) hend
    · exact hend (true, w1, s) (.refl s)

/-- The last lines of `write_file`. -/
theorem writeTail_onlyStages (s : Fs) (k : Fin 10) (x : Bool × WriteLocals × Fs)
    (hx : OnlyStages s x.2.2) :
    Returns (if !x.1 then pure (false, x.2.2) else do
      let d ← writeFatNextCluster x.2.2.sdb x.2.1.clusID 0xFFF
      let s := { x.2.2 with sdb := d }
      pure (true, s.setActive k { s.activelist k with buffsize := UInt32.ofNat x.2.1.size }))
      fun r : Bool × Fs => OnlyStages s r.2 := by
  split
  · exact .ok hx
  · refine .bind .any fun d _ => .ok ?_
    have hd : OnlyStages x.2.2 { x.2.2 with sdb := d } := .of_disk _ _ _
    exact (hx.trans hd).trans (.of_entry _ k (x.2.2.activelist k).head _)

theorem writeFile_onlyStages (s : Fs) (k : Fin 10) (content : List UInt8) :
    Returns (writeFile s k content) fun r => OnlyStages s r.2 := by
  unfold writeFile
  split
  · exact .ok (.refl s)
  · have hget := getEmptyAFBLNode_onlyStages s
    generalize getEmptyAFBLNode s = x at hget ⊢
    obtain ⟨now, s1⟩ := x
    have hhead := hget.trans (.of_entry s1 k now (s1.activelist k).buffsize)
    have hprint := hhead.trans (.printf _ "Please enter content: \n")
    dsimp only
    split
    · exact .error _
    · refine .bind .any fun text _ => ?_
      refine .bind (writeChars_onlyStages _ _ _) fun x hx => ?_
      have hs2 := hprint.trans hx
      split
      · exact .ok hs2
      · split
        · exact .bind (stageBuff_onlyStages _ _) fun y hy =>
            writeTail_onlyStages s k y (hs2.trans hy)
        · exact writeTail_onlyStages s k (true, x.2.1, x.2.2) hs2

theorem copyFromSda_onlyStages (n i : Nat) (s : Fs) (c : Nat) (now : Option (Fin 100)) :
    Returns (copyFromSda n i s c now) fun r => OnlyStages s r.2 := by
  induction n generalizing i s c now with
  | zero => exact .ok (.refl s)
  | succ n ih =>
    -- one sector is staged, and the rest of the loop
    have hend : ∀ x : Bool × Nat × Option (Fin 100) × Fs, OnlyStages s x.2.2.2 →
        Returns (if !x.1 then pure (false, x.2.2.2) else do
          let s ← initAFBLNode x.2.2.2 x.2.2.1 (x.2.2.2.sda (300 + i)) none
          copyFromSda n (i + 1) s x.2.1 x.2.2.1) fun r : Bool × Fs => OnlyStages s r.2 := by
      intro x hx
      split
      · exact .ok hx
      · refine .bind (initAFBLNode_onlyStages _ _ _ _) fun s' hs' => ?_
        exact (ih _ _ _ _).mono fun r hr => (hx.trans hs').trans hr
    unfold copyFromSda
    split
    · exact .bind (nextStage_onlyStages _ _ _) hend
    · exact hend (true, c, now, s) (.refl s)

theorem writeFileFromSda_onlyStages (s : Fs) (k : Fin 10) (filesize : UInt32) :
    Returns (writeFileFromSda s k filesize) fun r => OnlyStages s r.2 := by
  unfold writeFileFromSda
  split
  · exact .ok (.refl s)
  · have hget := getEmptyAFBLNode_onlyStages s
    generalize getEmptyAFBLNode s = x at hget ⊢
    obtain ⟨now, s1⟩ := x
    have hhead := hget.trans (.of_entry s1 k now (s1.activelist k).buffsize)
    dsimp only
    split
    · exact .error _
    · refine .bind (copyFromSda_onlyStages _ _ _ _ _) fun x hx => ?_
      split
      · exact .ok (hhead.trans hx)
      · exact .ok ((hhead.trans hx).trans (.of_entry _ k (x.2.activelist k).head _))

/-- The loop of `active_file_close`. -/
theorem flushNodes_onlyStages (n : Nat) (s : Fs) (c : Nat) (p : Option (Fin 100)) :
    Returns (flushNodes n s c p) (OnlyStages s) := by
  induction n generalizing s c p with
  | zero => exact .error _
  | succ n ih =>
    cases p with
    | none => exact .ok (.refl s)
    | some now =>
      unfold flushNodes
      refine .bind .any fun d _ => ?_
      exact (ih _ _ _).mono fun s' hs' => OnlyStages.trans (.of_disk _ _ _) hs'

/-! ## Reading -/

theorem printBytes_onlyStages (fileSize : UInt32) (bytes : List UInt8) (s : Fs) (size : Nat) :
    OnlyStages s (printBytes fileSize bytes s size).1 := by
  induction bytes generalizing s size with
  | nil => exact .refl s
  | cons b bytes ih =>
    rw [printBytes]
    have hprint := OnlyStages.printf s (charText b)
    split
    · exact hprint
    · exact hprint.trans (ih _ _)

theorem readLoop_onlyStages (fileSize : UInt32) (n : Nat) (s : Fs) (c size : Nat) :
    Returns (readLoop fileSize n s c size) (OnlyStages s) := by
  induction n generalizing s c size with
  | zero => exact .error _
  | succ n ih =>
    unfold readLoop
    split
    · exact .ok (.refl s)
    · refine .bind .any fun buff _ => ?_
      have hprint := printBytes_onlyStages fileSize (List.ofFn buff) s size
      generalize printBytes fileSize (List.ofFn buff) s size = x at hprint ⊢
      exact (ih _ _ _).mono fun r hr => hprint.trans hr

theorem readFile_onlyStages (s : Fs) (k : Fin 10) : Returns (readFile s k) (OnlyStages s) := by
  unfold readFile
  split
  · exact .error _
  · exact .bind (readLoop_onlyStages _ _ _ _ _) fun s' hs' => .ok (hs'.trans (.printf _ _))

/-! ## Directory entries -/

theorem createDirEntry_disk (s : Fs) (dir file : FileRef) :
    Returns (createDirEntry s dir file) fun r => ∃ d, r.2 = { s with sdb := d } := by
  unfold createDirEntry
  dsimp only
  refine .bind .any fun x _ => ?_
  split
  · exact .ok ⟨x.2.2, rfl⟩
  · split
    · exact .ok ⟨x.2.2, rfl⟩
    · exact .bind .any fun y _ => .bind .any fun z _ => .ok ⟨z.2, rfl⟩

end GwOS
