import GwOS.Filesystem.Missing
import GwOS.Filesystem.Write

/-!
# The arrays behind paths, names and sectors

The other modules take a C string for a list of characters and say for each copy whether it
fits (`store`). Here the functions of `fsfunc.c` and `file.c` that cut a path into pieces, and
the loop of `write_file`, work on the arrays themselves, index by index, and an access behind
the end of an array has no result.

- `Arrays.generateFilename_iff`: a name fits when both parts of it have at most 30 characters;
  the functions that cut a path never leave their arrays.
- `writeFile_onArray`: the first text that `write_file` overruns its sector buffer with has 512
  characters. A shorter one it writes as the model of the other modules says.
-/

namespace GwOS

/-- The string in an array of `n` bytes, with zeros behind it. -/
def Str.inArray (str : Str) (n : Nat) : Bytes n := Bytes.ofFn fun i => (str[i]?).getD 0

namespace Arrays

/-! ## Cutting a path -/

/-- `strcmp(b, str) == 0`. -/
def isString {n : Nat} (b : Bytes n) (str : Str) : Bool :=
  (List.range (str.length + 1)).all fun i => b.get i == (str[i]?).getD 0

/-- The loop of `standard_dir_path`, with `n = strlen(dirPath)`; `k` characters are left. -/
def standardLoop (dirPath : Bytes 50) (n : Nat) : Nat → Nat → Bytes 50 → Nat → Option (Bytes 50 × Nat)
  | 0, _, s, len => some (s, len)
  | k + 1, i, s, len => do
    let c ← dirPath.read? i
    if i = n - 1 ∧ c = slash then standardLoop dirPath n k (i + 1) s len
    else
      let s ← s.write? len (toUpper c)
      standardLoop dirPath n k (i + 1) s (len + 1)

/-- `standard_dir_path`. -/
def standardDirPath (s dirPath : Bytes 50) : Option (Bytes 50) :=
  if isString dirPath [slash] then Bytes.copy? id dirPath 2 0 s 0
  else do
    let n ← dirPath.strlen?
    let (s, len) ← standardLoop dirPath n n 0 s 0
    s.write? len 0

/-- The first loop of `divede_path`: the first component, and the index it stops at. -/
def firstLoop (dirPath : Bytes 50) : Nat → Nat → Bytes 50 → Nat → Option (Bytes 50 × Nat × Nat)
  | 0, i, fstDir, fstLen => some (fstDir, i, fstLen)
  | k + 1, i, fstDir, fstLen => do
    let c ← dirPath.read? i
    if c = slash then some (fstDir, i, fstLen)
    else
      let fstDir ← fstDir.write? fstLen c
      firstLoop dirPath k (i + 1) fstDir (fstLen + 1)

/-- `divede_path`. -/
def dividePath (dirPath fstDir resPath : Bytes 50) : Option (Bytes 50 × Bytes 50) := do
  let n ← dirPath.strlen?
  let (fstDir, i, fstLen) ← firstLoop dirPath n 0 fstDir 0
  let resPath ← Bytes.copy? id dirPath (n - (i + 1)) (i + 1) resPath 0
  let fstDir ← fstDir.write? fstLen 0
  let resPath ← resPath.write? (n - (i + 1)) 0
  some (fstDir, resPath)

/-! ## Names -/

/-- The variables of `generate_filename`. -/
structure Parts where
  name : Bytes 50
  fst : Bytes 30
  ext : Bytes 30
  fstLen : Nat
  extLen : Nat
  dot : Bool

/-- The loop of `generate_filename` over the name; `k` characters are left. A character that is
no small letter is stored as it is. -/
def splitLoop : Nat → Nat → Parts → Option Parts
  | 0, _, p => some p
  | k + 1, i, p => do
    let c ← p.name.read? i
    if c = 0x2E then splitLoop k (i + 1) { p with dot := true }
    else
      let name ← p.name.write? i (toUpper c)
      if p.dot = false then
        let fst ← p.fst.write? p.fstLen (toUpper c)
        splitLoop k (i + 1) { p with name := name, fst := fst, fstLen := p.fstLen + 1 }
      else
        let ext ← p.ext.write? p.extLen (toUpper c)
        splitLoop k (i + 1) { p with name := name, ext := ext, extLen := p.extLen + 1 }

/-- The literals `".          "` and `"..         "`. -/
def dotLiteral (dots : Nat) : Bytes 12 :=
  Bytes.ofFn fun i => if i < dots then 0x2E else if i < 11 then 0x20 else 0

/-- `generate_filename`. -/
def generateFilename (name : Bytes 50) (filename : Bytes 12) : Option (Bytes 12) :=
  if isString name (dots 1) then Bytes.copy? id (dotLiteral 1) 12 0 filename 0
  else if isString name (dots 2) then Bytes.copy? id (dotLiteral 2) 12 0 filename 0
  else do
    let n ← name.strlen?
    let p ← splitLoop n 0 ⟨name, Bytes.zero 30, Bytes.zero 30, 0, 0, false⟩
    let fstLen := min p.fstLen 8
    let extLen := min p.extLen 3
    let filename ← Bytes.copy? id p.fst fstLen 0 filename 0
    let filename ← Bytes.fill? 0x20 (8 - fstLen) filename fstLen
    let filename ← Bytes.copy? id p.ext extLen 0 filename 8
    let filename ← Bytes.fill? 0x20 (3 - extLen) filename (8 + extLen)
    filename.write? 11 0

/-- The first loop of `file_path_to_dir_path`, downwards: the index behind the last `/`. -/
def behindSlash (filePath : Bytes 50) : Nat → Option Nat
  | 0 => some 0
  | k + 1 => do
    let c ← filePath.read? k
    if c = slash then some (k + 1) else behindSlash filePath k

/-- `file_path_to_dir_path`. Each `memset` clears as many bytes as a pointer has. -/
def filePathToDirPath (filePath dirPath : Bytes 50) (filename : Bytes 12) :
    Option (Bytes 50 × Bytes 12) := do
  let dirPath ← Bytes.fill? 0 4 dirPath 0
  let filename ← Bytes.fill? 0 4 filename 0
  let n ← filePath.strlen?
  let cut ← behindSlash filePath n
  let s ← Bytes.copy? id filePath (cut - 1) 0 (Bytes.zero 50) 0
  let s ← s.write? (cut - 1) 0
  let dirPath ← standardDirPath dirPath s
  let s ← Bytes.copy? id filePath (n - cut) cut s 0
  let s ← s.write? (n - cut) 0
  let filename ← generateFilename s filename
  some (dirPath, filename)

/-! ## Writing a text -/

/-- The `for` loop of `write_file`. -/
def writeChars : List UInt8 → Fs → WriteLocals → Option (Except Fault (Bool × WriteLocals × Fs))
  | [], s, w => some (.ok (true, w, s))
  | c :: rest, s, w => do
    let buff ← if w.id < bytePerSec then w.buff.write? w.id c else some w.buff
    if w.id = bytePerSec - 1 then
      let buff ← buff.write? (w.id + 1) 0
      match stageBuff s { w with buff := buff } with
      | .error e => some (.error e)
      | .ok (false, w, s) => some (.ok (false, w, s))
      | .ok (true, w, s) =>
        writeChars rest s { w with id := (w.id + 1) % bytePerSec, size := w.size + 1 }
    else
      writeChars rest s
        { w with buff := buff, id := (w.id + 1) % bytePerSec, size := w.size + 1 }

/-- The end of `write_file`, behind its last sector. -/
def finishWrite (k : Fin 10) (x : Except Fault (Bool × WriteLocals × Fs)) : Except Fault (Bool × Fs) := do
  let (ok, w, s) ← x
  if !ok then pure (false, s)
  else
    let d ← writeFatNextCluster s.sdb w.clusID 0xFFF
    let s := { s with sdb := d }
    pure (true, s.setActive k { s.activelist k with buffsize := UInt32.ofNat w.size })

/-- `write_file`, with the text that `scanf` stores in `s`. -/
def writeFile (s : Fs) (k : Fin 10) (content : List UInt8) : Option (Except Fault (Bool × Fs)) :=
  if (s.activelist k).type = .readOnly then some (.ok (false, s))
  else
    let (now, s) := getEmptyAFBLNode s
    let s := s.setActive k { s.activelist k with head := now }
    match (s.activelist k).file with
    | none => some (.error .nullDeref)
    | some file => do
      let s := s.printf "Please enter content: \n"
      match ← writeChars content s ⟨0, 0, 0, Bytes.zero 512, now, (s.file file).fstClus.toNat⟩ with
      | .error e => some (.error e)
      | .ok (false, _, s) => some (.ok (false, s))
      | .ok (true, w, s) =>
        if w.id > 0 then
          let buff ← Bytes.fill? 0x00 (bytePerSec - w.id) w.buff w.id
          some (finishWrite k (stageBuff s { w with buff := buff }))
        else some (finishWrite k (.ok (true, w, s)))

end Arrays

/-! ## Strings in arrays -/

/-- The array holds the string. -/
structure Holds {n : Nat} (b : Bytes n) (str : Str) : Prop where
  fits : str.length < n
  nonzero : 0 ∉ str
  chars : ∀ i, i ≤ str.length → b.get i = (str[i]?).getD 0

theorem getD_ne_zero {str : Str} (h : 0 ∉ str) {i : Nat} (hi : i < str.length) :
    (str[i]?).getD 0 ≠ 0 := by
  rw [List.getElem?_eq_getElem hi, Option.getD_some]
  exact fun he => h (he ▸ List.getElem_mem hi)

theorem getD_length (str : Str) : (str[str.length]?).getD 0 = 0 := by
  rw [List.getElem?_eq_none (le_refl _)]
  rfl

theorem holds_inArray {str : Str} {n : Nat} (hlen : str.length < n) (h : 0 ∉ str) :
    Holds (str.inArray n) str :=
  ⟨hlen, h, fun i hi => Bytes.get_ofFn _ (by omega)⟩

namespace Holds

variable {n : Nat} {b : Bytes n} {str : Str}

theorem strlen (h : Holds b str) : b.strlen? = some str.length := by
  refine Bytes.strlen?_eq h.fits ?_ fun j hj => ?_
  · rw [h.chars _ (le_refl _), getD_length]
  · rw [h.chars j hj.le]
    exact getD_ne_zero h.nonzero hj

/-- `strcmp` compares strings. -/
theorem isString_iff (h : Holds b str) {str' : Str} (h' : 0 ∉ str') :
    Arrays.isString b str' = true ↔ str = str' := by
  rw [Arrays.isString, List.all_eq_true]
  constructor
  · intro hall
    have hget : ∀ i, i ≤ str'.length → b.get i = (str'[i]?).getD 0 := fun i hi =>
      beq_iff_eq.mp (hall i (List.mem_range.mpr (Nat.lt_succ_of_le hi)))
    have hlen : str.length = str'.length := by
      rcases lt_trichotomy str.length str'.length with hlt | heq | hgt
      · have hend := h.chars _ (le_refl _)
        rw [hget _ hlt.le, getD_length] at hend
        exact absurd hend (getD_ne_zero h' hlt)
      · exact heq
      · have hend := hget _ (le_refl _)
        rw [h.chars _ hgt.le, getD_length] at hend
        exact absurd hend (getD_ne_zero h.nonzero hgt)
    refine List.ext_getElem hlen fun i hi hi' => ?_
    have hi2 := hget i hi'.le
    rw [h.chars i hi.le, List.getElem?_eq_getElem hi, List.getElem?_eq_getElem hi'] at hi2
    exact hi2
  · rintro rfl i hi
    exact beq_iff_eq.mpr (h.chars i (Nat.le_of_lt_succ (List.mem_range.mp hi)))

end Holds

/-! ## Names that fit -/

/-- The same for the rest `cs` of a name, behind a dot or not, with so many characters before it. -/
def RestFits (dot : Bool) (fstLen extLen : Nat) (cs : Str) : Prop :=
  if dot then extLen + (cs.filter (· ≠ 0x2E)).length ≤ 30
  else fstLen + (cs.takeWhile (· ≠ 0x2E)).length ≤ 30 ∧
    extLen + ((cs.dropWhile (· ≠ 0x2E)).filter (· ≠ 0x2E)).length ≤ 30

theorem restFits_dot {dot : Bool} {fstLen extLen : Nat} (cs : Str) (hfst : fstLen ≤ 30) :
    RestFits dot fstLen extLen (0x2E :: cs) ↔ RestFits true fstLen extLen cs := by
  cases dot <;> simp [RestFits, hfst]

theorem restFits_fst {fstLen extLen : Nat} {c : UInt8} (cs : Str) (hc : c ≠ 0x2E) :
    RestFits false fstLen extLen (c :: cs) ↔ RestFits false (fstLen + 1) extLen cs := by
  simp [RestFits, hc, Nat.add_assoc, Nat.add_comm 1]

theorem restFits_ext {fstLen extLen : Nat} {c : UInt8} (cs : Str) (hc : c ≠ 0x2E) :
    RestFits true fstLen extLen (c :: cs) ↔ RestFits true fstLen (extLen + 1) cs := by
  simp [RestFits, hc, Nat.add_assoc, Nat.add_comm 1]

/-- The name in its array, from the character `c` on: what is read there, and the rest, which a
store at this character does not change. -/
theorem name_cons {name : Bytes 50} {c : UInt8} {cs : Str} {i : Nat}
    (hname : ∀ j < (c :: cs).length, name.get (i + j) = ((c :: cs)[j]?).getD 0)
    (hi : i + (c :: cs).length ≤ 50) :
    name.read? i = some c ∧ (∀ j < cs.length, name.get (i + 1 + j) = (cs[j]?).getD 0) ∧
      ∀ v, ∀ j < cs.length, (name.set i v).get (i + 1 + j) = (cs[j]?).getD 0 := by
  rw [List.length_cons] at hi
  have hc : name.get i = c := hname 0 (Nat.succ_pos _)
  have hrest : ∀ j < cs.length, name.get (i + 1 + j) = (cs[j]?).getD 0 := by
    intro j hj
    have hnext := hname (j + 1) (Nat.succ_lt_succ hj)
    rwa [List.getElem?_cons_succ, show i + (j + 1) = i + 1 + j by omega] at hnext
  refine ⟨by rw [Bytes.read?_of_lt _ (by omega), hc], hrest, fun v j hj => ?_⟩
  rw [Bytes.get_set_ne _ _ (by omega), hrest j hj]

/-- The loop of `generate_filename` ends when the rest of the name fits, and leaves an array
when it does not. The induction is on the rest of the name. -/
theorem splitLoop_spec (cs : Str) {i : Nat} {p : Arrays.Parts}
    (hname : ∀ j < cs.length, p.name.get (i + j) = (cs[j]?).getD 0) (hi : i + cs.length ≤ 50)
    (hfst : p.fstLen ≤ 30) (hext : p.extLen ≤ 30) :
    (RestFits p.dot p.fstLen p.extLen cs → ∃ p', Arrays.splitLoop cs.length i p = some p' ∧
      p'.fstLen ≤ 30 ∧ p'.extLen ≤ 30) ∧
    (¬ RestFits p.dot p.fstLen p.extLen cs → Arrays.splitLoop cs.length i p = none) := by
  induction cs generalizing i p with
  | nil =>
    refine ⟨fun _ => ⟨p, rfl, hfst, hext⟩, fun hno => absurd ?_ hno⟩
    unfold RestFits
    cases p.dot
    · exact ⟨by simpa using hfst, by simpa using hext⟩
    · simpa using hext
  | cons c cs ih =>
    obtain ⟨hread, hrest, hrest'⟩ := name_cons hname hi
    rw [List.length_cons] at hi
    rw [List.length_cons, Arrays.splitLoop, hread]
    by_cases hdot : c = 0x2E
    · rw [hdot, restFits_dot cs hfst]
      exact ih (p := { p with dot := true }) hrest (by omega) hfst hext
    · show (_ → ∃ p', (if c = 0x2E then _ else p.name.write? i (toUpper c) >>= _) = some p' ∧ _) ∧
        (_ → (if c = 0x2E then _ else p.name.write? i (toUpper c) >>= _) = none)
      rw [if_neg hdot, Bytes.write?_of_lt _ _ (by omega)]
      cases hd : p.dot with
      | false =>
        rw [restFits_fst cs hdot]
        show (_ → ∃ p', (p.fst.write? p.fstLen (toUpper c) >>= _) = some p' ∧ _) ∧
          (_ → (p.fst.write? p.fstLen (toUpper c) >>= _) = none)
        by_cases hroom : p.fstLen < 30
        · have hih := ih (p := { p with
            name := p.name.set i (toUpper c), fst := p.fst.set p.fstLen (toUpper c),
            fstLen := p.fstLen + 1 }) (hrest' _) (by omega) hroom hext
          rw [Bytes.write?_of_lt _ _ hroom]
          simp only [hd] at hih
          exact hih
        · rw [Bytes.write?_of_le _ _ (by omega)]
          refine ⟨fun hf => absurd hf.1 (by omega), fun _ => rfl⟩
      | true =>
        rw [restFits_ext cs hdot]
        show (_ → ∃ p', (p.ext.write? p.extLen (toUpper c) >>= _) = some p' ∧ _) ∧
          (_ → (p.ext.write? p.extLen (toUpper c) >>= _) = none)
        by_cases hroom : p.extLen < 30
        · have hih := ih (p := { p with
            name := p.name.set i (toUpper c), ext := p.ext.set p.extLen (toUpper c),
            extLen := p.extLen + 1 }) (hrest' _) (by omega) hfst hroom
          rw [Bytes.write?_of_lt _ _ hroom]
          simp only [hd] at hih
          exact hih
        · rw [Bytes.write?_of_le _ _ (by omega)]
          refine ⟨fun hf => absurd (show p.extLen + 1 + _ ≤ 30 from hf) (by omega), fun _ => rfl⟩

theorem zero_not_mem_dots (k : Nat) : (0 : UInt8) ∉ dots k := by
  rw [dots, List.mem_replicate]
  rintro ⟨-, h⟩
  exact absurd h (by decide)

/-- **`generate_filename` stays in its arrays** exactly for the names that fit. -/
theorem Arrays.generateFilename_iff {name : Bytes 50} {str : Str} (h : Holds name str)
    (filename : Bytes 12) :
    (Arrays.generateFilename name filename).isSome ↔ NameFits str := by
  have hdots : ∀ k, Arrays.isString name (dots k) = true ↔ str = dots k := fun k =>
    h.isString_iff (zero_not_mem_dots k)
  have hliteral : ∀ k, (Bytes.copy? id (Arrays.dotLiteral k) 12 0 filename 0).isSome := by
    intro k
    obtain ⟨dst, hcopy, -⟩ := Bytes.copy?_ok id (Arrays.dotLiteral k) 12 0 filename 0 (le_refl 12)
      (le_refl 12)
    exact Option.isSome_iff_exists.mpr ⟨dst, hcopy⟩
  rw [Arrays.generateFilename]
  by_cases h1 : str = dots 1
  · rw [if_pos ((hdots 1).mpr h1), h1]
    exact iff_of_true (hliteral 1) (nameFits_dots 1)
  by_cases h2 : str = dots 2
  · rw [if_neg (mt (hdots 1).mp h1), if_pos ((hdots 2).mpr h2), h2]
    exact iff_of_true (hliteral 2) (nameFits_dots 2)
  rw [if_neg (mt (hdots 1).mp h1), if_neg (mt (hdots 2).mp h2), h.strlen]
  have hfits : RestFits false 0 0 str ↔ NameFits str := by
    simp only [RestFits, NameFits, Bool.false_eq_true, if_false, Nat.zero_add]
  -- the loop stays in the two arrays of 30 bytes exactly when the name fits
  obtain ⟨hsome, hnone⟩ := splitLoop_spec str (i := 0)
    (p := ⟨name, Bytes.zero 30, Bytes.zero 30, 0, 0, false⟩)
    (fun j hj => by rw [Nat.zero_add, h.chars j hj.le])
    (by rw [Nat.zero_add]; exact h.fits.le) (Nat.zero_le _) (Nat.zero_le _)
  rw [hfits] at hsome hnone
  show (Arrays.splitLoop str.length 0 _ >>= _).isSome ↔ _
  by_cases hname : NameFits str
  · obtain ⟨p, hsplit, hfst, hext⟩ := hsome hname
    refine iff_of_true ?_ hname
    rw [hsplit]
    -- what follows writes the eleven bytes of the name, padded with blanks
    obtain ⟨d1, h1, -⟩ := Bytes.copy?_ok id p.fst (min p.fstLen 8) 0 filename 0 (by omega) (by omega)
    obtain ⟨d2, h2, -⟩ := Bytes.fill?_ok 0x20 (8 - min p.fstLen 8) d1 (min p.fstLen 8) (by omega)
    obtain ⟨d3, h3, -⟩ := Bytes.copy?_ok id p.ext (min p.extLen 3) 0 d2 8 (by omega) (by omega)
    obtain ⟨d4, h4, -⟩ := Bytes.fill?_ok 0x20 (3 - min p.extLen 3) d3 (8 + min p.extLen 3) (by omega)
    show (Bytes.copy? id p.fst (min p.fstLen 8) 0 filename 0 >>= _).isSome
    rw [h1]
    show (Bytes.fill? 0x20 (8 - min p.fstLen 8) d1 (min p.fstLen 8) >>= _).isSome
    rw [h2]
    show (Bytes.copy? id p.ext (min p.extLen 3) 0 d2 8 >>= _).isSome
    rw [h3]
    show (Bytes.fill? 0x20 (3 - min p.extLen 3) d3 (8 + min p.extLen 3) >>= _).isSome
    rw [h4]
    rfl
  · rw [hnone hname]
    exact iff_of_false Bool.false_ne_true hname

/-! ## Paths -/

/-- `standard_dir_path` writes no more characters than it has read. -/
theorem standardLoop_ok (dirPath : Bytes 50) (n k i : Nat) (s : Bytes 50) (len : Nat)
    (hi : i + k ≤ 49) (hlen : len ≤ i) :
    ∃ s' len', Arrays.standardLoop dirPath n k i s len = some (s', len') ∧ len' ≤ i + k := by
  induction k generalizing i s len with
  | zero => exact ⟨s, len, rfl, hlen⟩
  | succ k ih =>
    rw [Arrays.standardLoop, Bytes.read?_of_lt _ (by omega)]
    show ∃ s' len', (if i = n - 1 ∧ dirPath.get i = slash then _ else
      s.write? len (toUpper (dirPath.get i)) >>= _) = some (s', len') ∧ _
    by_cases hlast : i = n - 1 ∧ dirPath.get i = slash
    · rw [if_pos hlast]
      obtain ⟨s', len', hloop, hle⟩ := ih (i + 1) s len (by omega) (by omega)
      exact ⟨s', len', hloop, by omega⟩
    · rw [if_neg hlast, Bytes.write?_of_lt _ _ (by omega)]
      obtain ⟨s', len', hloop, hle⟩ := ih (i + 1) (s.set len (toUpper (dirPath.get i))) (len + 1)
        (by omega) (by omega)
      exact ⟨s', len', hloop, by omega⟩

/-- **`standard_dir_path` stays in its arrays.** -/
theorem Arrays.standardDirPath_ok {dirPath : Bytes 50} {str : Str} (h : Holds dirPath str)
    (s : Bytes 50) : ∃ s', Arrays.standardDirPath s dirPath = some s' := by
  rw [Arrays.standardDirPath]
  split
  · obtain ⟨s', hcopy, -⟩ := Bytes.copy?_ok id dirPath 2 0 s 0 (by omega) (by omega)
    exact ⟨s', hcopy⟩
  · have hfits := h.fits
    obtain ⟨s', len, hloop, hlen⟩ := standardLoop_ok dirPath str.length str.length 0 s 0 (by omega)
      (le_refl _)
    rw [h.strlen]
    show ∃ s', (Arrays.standardLoop dirPath str.length str.length 0 s 0 >>= _) = some s'
    rw [hloop]
    exact ⟨_, Bytes.write?_of_lt _ _ (by omega)⟩

theorem firstLoop_ok (dirPath : Bytes 50) (k i : Nat) (fstDir : Bytes 50) (len : Nat)
    (hi : i + k ≤ 49) (hlen : len ≤ i) :
    ∃ fstDir' i' len', Arrays.firstLoop dirPath k i fstDir len = some (fstDir', i', len') ∧
      i' ≤ i + k ∧ len' ≤ i' := by
  induction k generalizing i fstDir len with
  | zero => exact ⟨fstDir, i, len, rfl, le_refl _, hlen⟩
  | succ k ih =>
    rw [Arrays.firstLoop, Bytes.read?_of_lt _ (by omega)]
    show ∃ fstDir' i' len', (if dirPath.get i = slash then _ else
      fstDir.write? len (dirPath.get i) >>= _) = some (fstDir', i', len') ∧ _
    by_cases hslash : dirPath.get i = slash
    · rw [if_pos hslash]
      exact ⟨fstDir, i, len, rfl, by omega, hlen⟩
    · rw [if_neg hslash, Bytes.write?_of_lt _ _ (by omega)]
      obtain ⟨fstDir', i', len', hloop, hi', hlen'⟩ := ih (i + 1) (fstDir.set len (dirPath.get i))
        (len + 1) (by omega) (by omega)
      exact ⟨fstDir', i', len', hloop, by omega, hlen'⟩

/-- **`divede_path` stays in its arrays.** -/
theorem Arrays.dividePath_ok {dirPath : Bytes 50} {str : Str} (h : Holds dirPath str)
    (fstDir resPath : Bytes 50) : ∃ r, Arrays.dividePath dirPath fstDir resPath = some r := by
  have hfits := h.fits
  obtain ⟨fstDir', i, len, hloop, hi, hlen⟩ := firstLoop_ok dirPath str.length 0 fstDir 0 (by omega)
    (le_refl _)
  rw [Nat.zero_add] at hi
  rw [Arrays.dividePath, h.strlen]
  show ∃ r, (Arrays.firstLoop dirPath str.length 0 fstDir 0 >>= _) = some r
  rw [hloop]
  obtain ⟨resPath', hcopy, -⟩ := Bytes.copy?_ok id dirPath (str.length - (i + 1)) (i + 1) resPath 0
    (by omega) (by omega)
  show ∃ r, (Bytes.copy? id dirPath (str.length - (i + 1)) (i + 1) resPath 0 >>= _) = some r
  rw [hcopy]
  show ∃ r, (fstDir'.write? len 0 >>= _) = some r
  rw [Bytes.write?_of_lt _ _ (by omega)]
  show ∃ r, (resPath'.write? (str.length - (i + 1)) 0 >>= _) = some r
  rw [Bytes.write?_of_lt _ _ (by omega)]
  exact ⟨_, rfl⟩

/-- A piece of a string, copied into another array and ended with a zero. -/
theorem Holds.piece {m n : Nat} {src : Bytes m} {str : Str} (h : Holds src str) (dst : Bytes n)
    {i k : Nat} (hk : i + k ≤ str.length) (hn : k < n) :
    ∃ dst' dst'', Bytes.copy? id src k i dst 0 = some dst' ∧ dst'.write? k 0 = some dst'' ∧
      Holds dst'' ((str.drop i).take k) := by
  have hfits := h.fits
  obtain ⟨dst', hcopy, hin, -⟩ := Bytes.copy?_ok id src k i dst 0 (by omega) (by omega)
  have hlen : ((str.drop i).take k).length = k := by
    rw [List.length_take, List.length_drop]
    omega
  refine ⟨dst', _, hcopy, Bytes.write?_of_lt dst' 0 hn, by rw [hlen]; exact hn, ?_, fun j hj => ?_⟩
  · exact fun hm => h.nonzero (List.mem_of_mem_drop (List.mem_of_mem_take hm))
  · rw [hlen] at hj
    rw [Bytes.get_set _ _ hn]
    by_cases hjk : j = k
    · rw [if_pos hjk, List.getElem?_eq_none (by omega)]
      rfl
    · have hjin := hin j (by omega)
      rw [Nat.zero_add] at hjin
      rw [if_neg hjk, hjin, id_eq, h.chars _ (by omega), List.getElem?_take_of_lt (by omega),
        List.getElem?_drop]

theorem behindLast_eq {str : Str} (h : slash ∉ str) : behindLast str = str := by
  have hall : ∀ b ∈ str.reverse, decide (b ≠ slash) = true := fun b hb =>
    decide_eq_true fun he => h (he ▸ List.mem_reverse.mp hb)
  rw [behindLast, List.takeWhile_eq_self_iff.mpr hall, List.reverse_reverse]

theorem behindLast_append {x str : Str} (h : slash ∉ str) : behindLast (x ++ slash :: str) = str := by
  have hall : ∀ b ∈ str.reverse, decide (b ≠ slash) = true := fun b hb =>
    decide_eq_true fun he => h (he ▸ List.mem_reverse.mp hb)
  rw [behindLast, List.reverse_append, List.reverse_cons, List.append_assoc,
    List.takeWhile_append_of_pos hall]
  simp

/-- The downward loop of `file_path_to_dir_path` stops behind the last `/`. -/
theorem behindSlash_ok {filePath : Bytes 50} {str : Str} (h : Holds filePath str) :
    ∃ cut, Arrays.behindSlash filePath str.length = some cut ∧ cut ≤ str.length ∧
      str.drop cut = behindLast str := by
  -- from `k` on, no `/` has been met
  have hloop : ∀ k, k ≤ str.length → slash ∉ str.drop k → ∃ cut,
      Arrays.behindSlash filePath k = some cut ∧ cut ≤ str.length ∧ str.drop cut = behindLast str := by
    intro k
    induction k with
    | zero =>
      intro _ hno
      exact ⟨0, rfl, Nat.zero_le _, (behindLast_eq hno).symm⟩
    | succ k ih =>
      intro hk hno
      have hfits := h.fits
      have hsplit : str.drop k = filePath.get k :: str.drop (k + 1) := by
        rw [h.chars k (by omega), List.getElem?_eq_getElem (by omega), Option.getD_some]
        exact List.drop_eq_getElem_cons (by omega)
      rw [Arrays.behindSlash, Bytes.read?_of_lt _ (by omega)]
      show ∃ cut, (if filePath.get k = slash then some (k + 1) else _) = some cut ∧ _
      by_cases hslash : filePath.get k = slash
      · rw [if_pos hslash]
        refine ⟨k + 1, rfl, hk, ?_⟩
        have hstr := List.take_append_drop k str
        rw [hsplit, hslash] at hstr
        rw [← behindLast_append (x := str.take k) hno, hstr]
      · rw [if_neg hslash]
        refine ih (by omega) ?_
        rw [hsplit, List.mem_cons, not_or]
        exact ⟨Ne.symm hslash, hno⟩
  exact hloop _ (le_refl _) (by simp)

/-- **`file_path_to_dir_path` stays in its arrays** exactly when the last component fits. -/
theorem Arrays.filePathToDirPath_iff {filePath : Bytes 50} {str : Str} (h : Holds filePath str)
    (dirPath : Bytes 50) (filename : Bytes 12) :
    (Arrays.filePathToDirPath filePath dirPath filename).isSome ↔ NameFits (behindLast str) := by
  have hfits := h.fits
  obtain ⟨dirPath', hfill, -⟩ := Bytes.fill?_ok 0 4 dirPath 0 (by omega)
  obtain ⟨filename', hfill', -⟩ := Bytes.fill?_ok 0 4 filename 0 (by omega)
  obtain ⟨cut, hcut, hle, hlast⟩ := behindSlash_ok h
  obtain ⟨s1, s2, hcopy1, hend1, hs2⟩ := h.piece (Bytes.zero 50) (i := 0) (k := cut - 1) (by omega)
    (by omega)
  obtain ⟨dirPath'', hdir⟩ := Arrays.standardDirPath_ok hs2 dirPath'
  obtain ⟨s3, s4, hcopy2, hend2, hs4⟩ := h.piece s2 (i := cut) (k := str.length - cut) (by omega)
    (by omega)
  rw [hlast, List.take_of_length_le (by rw [← hlast, List.length_drop])] at hs4
  have hname := Arrays.generateFilename_iff hs4 filename'
  rw [Arrays.filePathToDirPath, hfill, hfill', h.strlen]
  show (Arrays.behindSlash filePath str.length >>= _).isSome ↔ _
  rw [hcut]
  show (Bytes.copy? id filePath (cut - 1) 0 (Bytes.zero 50) 0 >>= _).isSome ↔ _
  rw [hcopy1]
  show (s1.write? (cut - 1) 0 >>= _).isSome ↔ _
  rw [hend1]
  show (Arrays.standardDirPath dirPath' s2 >>= _).isSome ↔ _
  rw [hdir]
  show (Bytes.copy? id filePath (str.length - cut) cut s2 0 >>= _).isSome ↔ _
  rw [hcopy2]
  show (s3.write? (str.length - cut) 0 >>= _).isSome ↔ _
  rw [hend2]
  show (Arrays.generateFilename s4 filename' >>= _).isSome ↔ _
  rw [← hname]
  cases Arrays.generateFilename s4 filename' with
  | none => exact Iff.rfl
  | some name => exact iff_of_true rfl rfl

/-! ## The sector buffer -/

section WriteFile

variable {s : Fs} {k : Fin 10} {r : FileRef}

/-- A text that does not reach the last byte of the buffer is stored in it. -/
theorem writeChars_short {cs : List UInt8} {w : WriteLocals} (h : w.id + cs.length < 512) :
    ∃ w', Arrays.writeChars cs s w = some (.ok (true, w', s)) ∧
      writeChars cs s w = .ok (true, w', s) ∧ w'.id = w.id + cs.length := by
  induction cs generalizing w with
  | nil => exact ⟨w, rfl, rfl, rfl⟩
  | cons c cs ih =>
    rw [List.length_cons] at h
    have hlast : ¬ w.id = bytePerSec - 1 := by
      unfold bytePerSec
      omega
    have hmod : (w.id + 1) % bytePerSec = w.id + 1 := by
      unfold bytePerSec
      omega
    obtain ⟨w', hchecked, hrun, hid⟩ := ih
      (w := { w with buff := w.buff.set w.id c, id := w.id + 1, size := w.size + 1 })
      (by show w.id + 1 + cs.length < 512; omega)
    refine ⟨w', ?_, ?_, ?_⟩
    · rw [Arrays.writeChars, if_pos (show w.id < bytePerSec by unfold bytePerSec; omega),
        Bytes.write?_of_lt _ _ (by omega)]
      show (if w.id = bytePerSec - 1 then _ else _) = _
      rw [if_neg hlast, hmod]
      exact hchecked
    · rw [writeChars_cons c cs s w (by omega), if_neg hlast]
      exact hrun
    · rw [hid, List.length_cons]
      show w.id + 1 + cs.length = _
      omega

/-- Behind the last byte of the buffer, `write_file` stores a zero. -/
theorem writeChars_long {cs : List UInt8} {w : WriteLocals} (hid : w.id < 512)
    (h : 512 ≤ w.id + cs.length) : Arrays.writeChars cs s w = none := by
  induction cs generalizing w with
  | nil =>
    rw [List.length_nil] at h
    omega
  | cons c cs ih =>
    rw [List.length_cons] at h
    rw [Arrays.writeChars, if_pos (show w.id < bytePerSec from hid), Bytes.write?_of_lt _ _ hid]
    show (if w.id = bytePerSec - 1 then (w.buff.set w.id c).write? (w.id + 1) 0 >>= _ else _) = none
    by_cases hlast : w.id = bytePerSec - 1
    · have hend : 512 ≤ w.id + 1 := by
        rw [hlast]
        decide
      rw [if_pos hlast, Bytes.write?_of_le _ _ hend]
      rfl
    · have hmod : (w.id + 1) % bytePerSec = w.id + 1 := by
        unfold bytePerSec at *
        omega
      have hlt : w.id + 1 < 512 := by
        unfold bytePerSec at hlast
        omega
      rw [if_neg hlast, hmod]
      exact ih (w := { w with buff := w.buff.set w.id c, id := w.id + 1, size := w.size + 1 }) hlt
        (by show 512 ≤ w.id + 1 + cs.length; omega)

/-- The last, partial sector is filled up inside the buffer. -/
theorem fill?_partial (buff : Sector) {id : Nat} (h : id < 512) :
    Bytes.fill? 0x00 (bytePerSec - id) buff id =
      some (Bytes.ofFn fun i => if id ≤ i then 0x00 else buff.get i) := by
  obtain ⟨dst, hfill, hget⟩ := Bytes.fill?_ok 0x00 (bytePerSec - id) buff id (by
    unfold bytePerSec
    omega)
  rw [hfill]
  refine congrArg some (Bytes.ext_get fun i hi => ?_)
  rw [hget, Bytes.get_ofFn _ hi]
  by_cases hle : id ≤ i
  · rw [if_pos hle, if_pos ⟨hle, by unfold bytePerSec; omega⟩]
  · rw [if_neg hle, if_neg fun hin => hle hin.1]

/-- **`write_file` on the array**: the text may have 511 characters. -/
theorem writeFile_onArray {content : List UInt8} (hfile : (s.activelist k).file = some r)
    (htype : (s.activelist k).type ≠ .readOnly) :
    Arrays.writeFile s k content =
      if content.length < 512 then some (writeFile s k content) else none := by
  have hact : (getEmptyAFBLNode s).2.activelist = s.activelist := by
    unfold getEmptyAFBLNode
    cases emptyNode s <;> rfl
  rw [Arrays.writeFile, writeFile, if_neg htype, if_neg htype]
  generalize getEmptyAFBLNode s = x at hact
  obtain ⟨now, s1⟩ := x
  dsimp only at hact ⊢
  generalize hs2 : s1.setActive k { s1.activelist k with head := now } = s2
  have hfile2 : (s2.activelist k).file = some r := by
    rw [← hs2, ← hfile, ← hact]
    simp [Fs.setActive]
  simp only [hfile2]
  generalize hw0 : (⟨0, 0, 0, Bytes.zero 512, now, ((s2.printf "Please enter content: \n").file r).fstClus.toNat⟩ : WriteLocals) = w0
  have hid0 : w0.id = 0 := by rw [← hw0]
  by_cases hlen : content.length < 512
  · obtain ⟨w, hchecked, hrun, hid⟩ := writeChars_short (s := s2.printf "Please enter content: \n")
      (w := w0) (show w0.id + content.length < 512 by omega)
    rw [if_pos hlen, hchecked, store_ok (by omega)]
    simp only [bind, Option.bind, Except.bind, hrun, Bool.not_true, Bool.false_eq_true, if_false]
    by_cases hpos : w.id > 0
    · rw [if_pos hpos, if_pos hpos, fill?_partial w.buff (by omega)]
      rfl
    · rw [if_neg hpos, if_neg hpos]
      rfl
  · rw [if_neg hlen, writeChars_long (by omega) (by omega)]
    rfl

end WriteFile

/-! ## All of them -/

/-- Wherever they are called for the token, the functions that cut a path and make names stay in
their arrays. -/
structure TokenInside (token : Str) : Prop where
  path : ∀ dirPath filename,
    (Arrays.filePathToDirPath (token.inArray 50) dirPath filename).isSome
  standard : ∀ s, (Arrays.standardDirPath s (token.inArray 50)).isSome
  divide : ∀ fstDir resPath, (Arrays.dividePath (token.inArray 50) fstDir resPath).isSome
  name : ∀ c ∈ Pathname.components slash token, ∀ filename,
    (Arrays.generateFilename (Str.inArray c 50) filename).isSome

/-- What stands behind the last `/`, if anything does, is a component. -/
theorem behindLast_mem {token : Str} (h : behindLast token ≠ []) :
    behindLast token ∈ Pathname.components slash token := by
  have hno : slash ∉ behindLast token := by
    intro hm
    rw [behindLast, List.mem_reverse] at hm
    simpa using List.mem_takeWhile_imp hm
  rcases hrest : token.reverse.dropWhile (· ≠ slash) with _ | ⟨b, rest⟩
  · have htoken : behindLast token = token := by
      have happ := List.takeWhile_append_dropWhile (p := (· ≠ slash)) (l := token.reverse)
      rw [hrest, List.append_nil] at happ
      rw [behindLast, happ, List.reverse_reverse]
    rw [htoken] at h hno ⊢
    rw [Pathname.components_single ⟨h, hno⟩]
    exact List.mem_singleton_self _
  · have hb : b = slash := by
      have hhead := List.head?_dropWhile_not (fun x => decide (x ≠ slash)) token.reverse
      rw [hrest] at hhead
      simpa using hhead
    have htoken : token = rest.reverse ++ slash :: behindLast token := by
      have happ := congrArg List.reverse
        (List.takeWhile_append_dropWhile (p := (· ≠ slash)) (l := token.reverse))
      rw [hrest, hb, List.reverse_append, List.reverse_cons, List.reverse_reverse,
        List.append_assoc] at happ
      exact happ.symm
    rw [htoken, Pathname.components_append, behindLast_append hno,
      Pathname.components_single ⟨h, hno⟩]
    exact List.mem_append_right _ (List.mem_singleton_self _)

theorem tokenInside_iff {token : Str} (hlen : token.length ≤ 49) (hzero : 0 ∉ token) :
    TokenInside token ↔ ∀ c ∈ Pathname.components slash token, NameFits c := by
  have hold := holds_inArray (n := 50) (Nat.lt_succ_of_le hlen) hzero
  have hparts : ∀ c ∈ Pathname.components slash token, Holds (Str.inArray c 50) c := by
    intro c hc
    have hsub := Pathname.components_sublist hc
    have hclen := hsub.length_le
    exact holds_inArray (by omega) fun h0 => hzero (hsub.mem h0)
  constructor
  · exact fun h c hc =>
      (Arrays.generateFilename_iff (hparts c hc) (Bytes.zero 12)).mp (h.name c hc _)
  · intro h
    refine ⟨fun dirPath filename => (Arrays.filePathToDirPath_iff hold dirPath filename).mpr ?_,
      fun s => Option.isSome_iff_exists.mpr (Arrays.standardDirPath_ok hold s),
      fun fstDir resPath => Option.isSome_iff_exists.mpr (Arrays.dividePath_ok hold fstDir resPath),
      fun c hc filename => (Arrays.generateFilename_iff (hparts c hc) filename).mpr (h c hc)⟩
    by_cases hnil : behindLast token = []
    · rw [hnil]
      exact nameFits_dots 0
    · exact h _ (behindLast_mem hnil)

/-- **Buffers.** For a file that is open for writing, `write_file` stays in its sector buffer
exactly when the text has less than 512 characters. For a token that fits its array, the functions
that cut paths and make names stay in theirs exactly when each component has at most 30 characters
in front of its first dot and at most 30, dots aside, behind it. -/
theorem buffers_inside_iff {s : Fs} {k : Fin 10} {r : FileRef} (text : List UInt8) {token : Str}
    (hfile : (s.activelist k).file = some r) (htype : (s.activelist k).type ≠ .readOnly)
    (hlen : token.length ≤ 49) (hzero : 0 ∉ token) :
    ((Arrays.writeFile s k text).isSome ↔ text.length < 512) ∧
      (TokenInside token ↔ ∀ c ∈ Pathname.components slash token, NameFits c) := by
  refine ⟨?_, tokenInside_iff hlen hzero⟩
  rw [writeFile_onArray hfile htype]
  split
  · next hlt => exact iff_of_true rfl hlt
  · next hge => exact iff_of_false Bool.false_ne_true hge

/-- A text of 600 characters overruns the buffer, and one of 6 does not; a name of 31 letters
overruns its array, and one of 8 does not. -/
theorem buffers_inside_sample :
    ¬ (Arrays.writeFile (activeFileOpen oneFileFs 0 (.slot 0) .readWrite) 0
      (List.replicate 600 0x61)).isSome ∧
    (Arrays.writeFile (activeFileOpen oneFileFs 0 (.slot 0) .readWrite) 0
      (List.replicate 6 0x61)).isSome ∧
    ¬ TokenInside (List.replicate 31 0x61) ∧ TokenInside (List.replicate 8 0x61) := by
  have hself := activeFileOpen_self oneFileFs 0 (.slot 0) .readWrite
  have hfile : ((activeFileOpen oneFileFs 0 (.slot 0) .readWrite).activelist 0).file =
      some (.slot 0) := by rw [hself]
  have htype : ((activeFileOpen oneFileFs 0 (.slot 0) .readWrite).activelist 0).type ≠ .readOnly := by
    rw [hself]
    exact FileOpenType.noConfusion
  have hlen31 : (List.replicate 31 (0x61 : UInt8)).length ≤ 49 := by decide
  have hlen8 : (List.replicate 8 (0x61 : UInt8)).length ≤ 49 := by decide
  obtain ⟨hlong, htoken31⟩ := buffers_inside_iff (List.replicate 600 0x61) hfile htype hlen31 (by decide)
  obtain ⟨hshort, htoken8⟩ := buffers_inside_iff (List.replicate 6 0x61) hfile htype hlen8 (by decide)
  have hparts : ∀ n, 0 < n → Pathname.components slash (List.replicate n (0x61 : UInt8)) =
      [List.replicate n 0x61] := by
    intro n hn
    refine Pathname.components_single ⟨?_, fun hm => absurd (List.eq_of_mem_replicate hm) (by decide)⟩
    rw [ne_eq, List.replicate_eq_nil_iff]
    omega
  rw [hparts 31 (by decide)] at htoken31
  rw [hparts 8 (by decide)] at htoken8
  rw [List.length_replicate] at hlong hshort
  refine ⟨fun h => absurd (hlong.mp h) (by decide), hshort.mpr (by decide), fun h => ?_,
    htoken8.mpr ?_⟩
  · exact absurd (htoken31.mp h _ (List.mem_singleton_self _)) (by decide)
  · intro c hc
    rw [List.mem_singleton.mp hc]
    decide

/-- 512 characters overrun the sector buffer of `write_file`, and a name of 31 letters overruns the
array `fst` of `generate_filename`. -/
theorem buffers_overrun :
    ¬ (∀ text : List UInt8, text.length < 1024 → (Arrays.writeFile
      (activeFileOpen oneFileFs 0 (.slot 0) .readWrite) 0 text).isSome) ∧
    ¬ (∀ token : Str, token.length ≤ 49 → 0 ∉ token → TokenInside token) := by
  have hself := activeFileOpen_self oneFileFs 0 (.slot 0) .readWrite
  constructor
  · intro h
    have hrun := h (List.replicate 512 0x61) (by rw [List.length_replicate]; decide)
    rw [writeFile_onArray (by rw [hself]) (by rw [hself]; exact FileOpenType.noConfusion),
      List.length_replicate, if_neg (by decide)] at hrun
    cases hrun
  · intro h
    have hlen : (List.replicate 31 (0x61 : UInt8)).length ≤ 49 := by decide
    have htoken := h (List.replicate 31 0x61) hlen (by decide)
    have hparts : Pathname.components slash (List.replicate 31 (0x61 : UInt8)) = [List.replicate 31 0x61] :=
      Pathname.components_single ⟨by simp, by decide⟩
    rw [tokenInside_iff hlen (by decide), hparts] at htoken
    exact absurd (htoken _ (List.mem_singleton_self _)) (by decide)

end GwOS
