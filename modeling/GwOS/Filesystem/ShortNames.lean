import GwOS.Filesystem.Buffers
import GwOS.Lib.Format
import Mathlib.Data.List.DropRight

/-!
# Names of 8 and 3 characters

`generate_filename` cuts a name at its dots and fills both parts up with blanks;
`file_print_name` prints the parts without the blanks and puts the dot back.

- `Arrays.generateFilename_refines`: the loops over the arrays store the name that the model of
  the other modules gives, for every name that fits.
- `filePrintName_ok`: what is printed for two parts without blanks, one `printf` after the other.
- `shortName_roundTrip`: a name of 1 to 8 characters, with up to 3 behind a dot, is printed in
  capital letters, and two such names are told apart but for their case.
-/

namespace GwOS

/-! ## The loops of `generate_filename` -/

/-- What the rest `cs` of a name adds to the first part, behind a dot or not. -/
def restFst (dot : Bool) (cs : Str) : Str := if dot then [] else (cs.takeWhile (· ≠ 0x2E)).map toUpper

/-- What it adds to the second part. -/
def restExt (dot : Bool) (cs : Str) : Str :=
  ((if dot then cs else cs.dropWhile (· ≠ 0x2E)).filter (· ≠ 0x2E)).map toUpper

theorem rest_dot (dot : Bool) (cs : Str) :
    restFst dot (0x2E :: cs) = restFst true cs ∧ restExt dot (0x2E :: cs) = restExt true cs := by
  cases dot <;> simp [restFst, restExt]

theorem rest_fst {c : UInt8} (hc : c ≠ 0x2E) (cs : Str) :
    restFst false (c :: cs) = toUpper c :: restFst false cs ∧
      restExt false (c :: cs) = restExt false cs := by
  simp [restFst, restExt, hc]

theorem rest_ext {c : UInt8} (hc : c ≠ 0x2E) (cs : Str) :
    restFst true (c :: cs) = restFst true cs ∧
      restExt true (c :: cs) = toUpper c :: restExt true cs := by
  simp [restFst, restExt, hc]

/-- The loop over the name, with the parts `fst` and `ext` in the arrays so far. The induction is
on the rest of the name. -/
theorem splitLoop_parts (cs : Str) {i : Nat} {p : Arrays.Parts} (fst ext : Str)
    (hname : ∀ j < cs.length, p.name.get (i + j) = (cs[j]?).getD 0) (hi : i + cs.length ≤ 50)
    (hfst : p.fst.HasAt 0 fst) (hext : p.ext.HasAt 0 ext)
    (hfstLen : p.fstLen = fst.length) (hextLen : p.extLen = ext.length)
    (hroomF : (fst ++ restFst p.dot cs).length ≤ 30) (hroomE : (ext ++ restExt p.dot cs).length ≤ 30) :
    ∃ p', Arrays.splitLoop cs.length i p = some p' ∧
      p'.fst.HasAt 0 (fst ++ restFst p.dot cs) ∧ p'.fstLen = (fst ++ restFst p.dot cs).length ∧
      p'.ext.HasAt 0 (ext ++ restExt p.dot cs) ∧ p'.extLen = (ext ++ restExt p.dot cs).length := by
  induction cs generalizing i p fst ext with
  | nil =>
    have hf : restFst p.dot [] = [] := by cases p.dot <;> rfl
    have he : restExt p.dot [] = [] := by cases p.dot <;> rfl
    rw [hf, he, List.append_nil, List.append_nil]
    exact ⟨p, rfl, hfst, hfstLen, hext, hextLen⟩
  | cons c cs ih =>
    obtain ⟨hread, hrest, hrest'⟩ := name_cons hname hi
    rw [List.length_cons] at hi
    rw [List.length_cons, Arrays.splitLoop, hread]
    by_cases hdot : c = 0x2E
    · rw [hdot, (rest_dot p.dot cs).1] at hroomF ⊢
      rw [hdot, (rest_dot p.dot cs).2] at hroomE
      rw [(rest_dot p.dot cs).2]
      exact ih (p := { p with dot := true }) fst ext hrest (by omega) hfst hext hfstLen hextLen hroomF hroomE
    · show ∃ p', (if c = 0x2E then _ else p.name.write? i (toUpper c) >>= _) = some p' ∧ _
      rw [if_neg hdot, Bytes.write?_of_lt _ _ (by omega)]
      cases hd : p.dot with
      | false =>
        obtain ⟨hf, he⟩ := rest_fst hdot cs
        rw [hd, hf] at hroomF
        rw [hd, he] at hroomE
        rw [hf, he, ← List.singleton_append, ← List.append_assoc]
        rw [← List.singleton_append, ← List.append_assoc] at hroomF
        have hroom : fst.length < 30 := Bytes.length_lt_of_append hroomF
        have hpush := hfst.push (c := toUpper c) hroom
        rw [← hfstLen] at hpush
        have hih := ih (p := { p with
          name := p.name.set i (toUpper c), fst := p.fst.set p.fstLen (toUpper c),
          fstLen := p.fstLen + 1 }) (fst ++ [toUpper c]) ext (hrest' _) (by omega) hpush hext
          (by simp [hfstLen]) hextLen
        simp only [hd] at hih
        obtain ⟨p', hloop, hparts⟩ := hih hroomF hroomE
        refine ⟨p', ?_, hparts⟩
        show (p.fst.write? p.fstLen (toUpper c) >>= _) = _
        rw [Bytes.write?_of_lt _ _ (by omega)]
        exact hloop
      | true =>
        obtain ⟨hf, he⟩ := rest_ext hdot cs
        rw [hd, hf] at hroomF
        rw [hd, he] at hroomE
        rw [hf, he, ← List.singleton_append (l := restExt true cs), ← List.append_assoc ext]
        rw [← List.singleton_append, ← List.append_assoc] at hroomE
        have hroom : ext.length < 30 := Bytes.length_lt_of_append hroomE
        have hpush := hext.push (c := toUpper c) hroom
        rw [← hextLen] at hpush
        have hih := ih (p := { p with
          name := p.name.set i (toUpper c), ext := p.ext.set p.extLen (toUpper c),
          extLen := p.extLen + 1 }) fst (ext ++ [toUpper c]) (hrest' _) (by omega) hfst hpush
          hfstLen (by simp [hextLen])
        simp only [hd] at hih
        obtain ⟨p', hloop, hparts⟩ := hih hroomF hroomE
        refine ⟨p', ?_, hparts⟩
        show (p.ext.write? p.extLen (toUpper c) >>= _) = _
        rw [Bytes.write?_of_lt _ _ (by omega)]
        exact hloop

/-- A part is copied, cut off at `k` characters, and filled up with blanks. -/
theorem padPart_ok {n m : Nat} {src : Bytes n} {u : Str} (hu : src.HasAt 0 u) (hun : u.length ≤ n)
    (dst : Bytes m) (st : Nat) {k : Nat} (hfit : st + k ≤ m) :
    ∃ dst' dst'', Bytes.copy? id src (min u.length k) 0 dst st = some dst' ∧
      Bytes.fill? 0x20 (k - min u.length k) dst' (st + min u.length k) = some dst'' ∧
      (∀ j < k, dst''.get (st + j) = charOrBlank u j) ∧
      ∀ j, (j < st ∨ st + k ≤ j) → dst''.get j = dst.get j := by
  obtain ⟨d1, hcopy, hin, hout⟩ := Bytes.copy?_ok id src (min u.length k) 0 dst st (by omega) (by omega)
  obtain ⟨d2, hfill, hget⟩ := Bytes.fill?_ok 0x20 (k - min u.length k) d1 (st + min u.length k) (by omega)
  refine ⟨d1, d2, hcopy, hfill, fun j hj => ?_, fun j hj => ?_⟩
  · rw [hget, charOrBlank]
    by_cases hju : j < u.length
    · rw [if_neg (by omega), hin j (by omega), List.getElem?_eq_getElem hju]
      exact hu j hju
    · rw [if_pos (by omega), List.getElem?_eq_none (by omega)]
      rfl
  · rw [hget, if_neg (by omega), hout j (by omega)]

/-- The two literals are stored with their end mark. -/
theorem copy_dotLiteral (k : Nat) (filename : Bytes 12) :
    ∃ out, Bytes.copy? id (Arrays.dotLiteral k) 12 0 filename 0 = some out ∧
      (Bytes.ofFn out.get : Name) = dotName k := by
  obtain ⟨out, hcopy, hin, -⟩ := Bytes.copy?_ok id (Arrays.dotLiteral k) 12 0 filename 0 (le_refl 12)
    (le_refl 12)
  refine ⟨out, hcopy, Bytes.ext_get fun i hi => ?_⟩
  have hget := hin i (by omega)
  rw [Nat.zero_add] at hget
  rw [Bytes.get_ofFn _ hi, hget, id, Arrays.dotLiteral, Bytes.get_ofFn _ (by omega), dotName,
    Bytes.get_ofFn _ hi, if_pos hi]

/-- **The arrays hold the name** that `generateFilename` gives. -/
theorem Arrays.generateFilename_refines {a : Bytes 50} {str : Str} (h : Holds a str) {name : Name}
    (hname : GwOS.generateFilename str = .ok name) (filename : Bytes 12) :
    ∃ out, Arrays.generateFilename a filename = some out ∧ (Bytes.ofFn out.get : Name) = name := by
  have hdots : ∀ k, Arrays.isString a (dots k) = true ↔ str = dots k := fun k =>
    h.isString_iff (zero_not_mem_dots k)
  rw [GwOS.generateFilename] at hname
  rw [Arrays.generateFilename]
  by_cases h1 : str = dots 1
  · rw [if_pos h1] at hname
    rw [if_pos ((hdots 1).mpr h1), ← Except.ok.inj hname]
    exact copy_dotLiteral 1 filename
  by_cases h2 : str = dots 2
  · rw [if_neg h1, if_pos h2] at hname
    rw [if_neg (mt (hdots 1).mp h1), if_pos ((hdots 2).mpr h2), ← Except.ok.inj hname]
    exact copy_dotLiteral 2 filename
  rw [if_neg h1, if_neg h2] at hname
  rw [if_neg (mt (hdots 1).mp h1), if_neg (mt (hdots 2).mp h2), h.strlen]
  obtain ⟨fst, hfst, hname⟩ := bind_eq_ok.mp hname
  obtain ⟨ext, hext, hname⟩ := bind_eq_ok.mp hname
  obtain ⟨rfl, hfstLen⟩ := store_eq hfst
  obtain ⟨rfl, hextLen⟩ := store_eq hext
  obtain ⟨p, hsplit, hpf, hpfl, hpe, hpel⟩ := splitLoop_parts str (i := 0)
    (p := ⟨a, Bytes.zero 30, Bytes.zero 30, 0, 0, false⟩) [] []
    (fun j hj => by rw [Nat.zero_add, h.chars j hj.le]) (by rw [Nat.zero_add]; exact h.fits.le)
    Bytes.hasAt_nil Bytes.hasAt_nil rfl rfl (Nat.le_of_lt_succ hfstLen) (Nat.le_of_lt_succ hextLen)
  simp only [List.nil_append, restFst, restExt, Bool.false_eq_true, if_false] at hpf hpfl hpe hpel
  show ∃ out, (Arrays.splitLoop str.length 0 _ >>= _) = some out ∧ _
  rw [hsplit]
  -- what follows writes the eleven bytes of the name, padded with blanks
  obtain ⟨d1, d2, hc1, hf1, hin1, -⟩ := padPart_ok hpf (Nat.le_of_lt_succ hfstLen) filename 0
    (k := 8) (by omega)
  obtain ⟨d3, d4, hc2, hf2, hin2, hout2⟩ := padPart_ok hpe (Nat.le_of_lt_succ hextLen) d2 8
    (k := 3) (by omega)
  rw [← hpfl, Nat.zero_add] at hf1
  rw [← hpfl] at hc1
  rw [← hpel] at hc2 hf2
  show ∃ out, (Bytes.copy? id p.fst (min p.fstLen 8) 0 filename 0 >>= _) = some out ∧ _
  rw [hc1]
  show ∃ out, (Bytes.fill? 0x20 (8 - min p.fstLen 8) d1 (min p.fstLen 8) >>= _) = some out ∧ _
  rw [hf1]
  show ∃ out, (Bytes.copy? id p.ext (min p.extLen 3) 0 d2 8 >>= _) = some out ∧ _
  rw [hc2]
  show ∃ out, (Bytes.fill? 0x20 (3 - min p.extLen 3) d3 (8 + min p.extLen 3) >>= _) = some out ∧ _
  rw [hf2]
  refine ⟨d4.set 11 0, rfl, ?_⟩
  rw [← Except.ok.inj hname]
  refine Bytes.ext_get fun i hi => ?_
  rw [Bytes.get_ofFn _ hi, Bytes.get_ofFn _ hi, Bytes.get_set_ne _ _ (by omega)]
  by_cases hi8 : i < 8
  · rw [if_pos hi8, hout2 i (.inl hi8)]
    have hget := hin1 i hi8
    rwa [Nat.zero_add] at hget
  · rw [if_neg hi8]
    have hget := hin2 (i - 8) (by omega)
    rwa [show 8 + (i - 8) = i by omega] at hget

/-! ## `file_print_name` -/

/-- A `char` as an argument of a variadic function. -/
def promote (c : UInt8) : UInt32 := c.toInt8.toInt32.toUInt32

/-- A loop of `file_print_name` over some bytes of the name, with what has been printed and
`cnt`. -/
def printPart (mem : UInt32 → UInt8) (filename : Name) : List Nat → Str → Nat → Option (Str × Nat)
  | [], text, cnt => some (text, cnt)
  | i :: is, text, cnt =>
    if filename.get i ≠ 0x20 then do
      let out ← printf mem [0x25, 0x63] [promote (filename.get i)]
      printPart mem filename is (text ++ out) (cnt + 1)
    else printPart mem filename is text cnt

/-- The last loop of `file_print_name`, with `k` blanks left. -/
def printBlanks (mem : UInt32 → UInt8) : Nat → Str → Option Str
  | 0, text => some text
  | k + 1, text => do
    let out ← printf mem [0x20] []
    printBlanks mem k (text ++ out)

/-- `file_print_name`: all that it prints. -/
def filePrintName (mem : UInt32 → UInt8) (filename : Name) : Option Str := do
  let (text, cnt) ← printPart mem filename (List.range 8) [] 0
  let dot := if filename.get 8 ≠ 0x20 then printf mem [0x2E] [] else some []
  let out ← dot
  let cnt := if filename.get 8 ≠ 0x20 then cnt + 1 else cnt
  let (text, cnt) ← printPart mem filename [8, 9, 10] (text ++ out) cnt
  printBlanks mem (12 - cnt) text

theorem promote_low (c : UInt8) : (promote c).toUInt8 = c := by
  have hall : ∀ k : Fin 256, (promote (UInt8.ofNat k.val)).toUInt8 = UInt8.ofNat k.val := by
    decide +kernel
  have hc := hall ⟨c.toNat, c.toNat_lt⟩
  rwa [UInt8.ofNat_toNat] at hc

theorem printf_char (mem : UInt32 → UInt8) {c : UInt8} (hc : c ≠ 0) :
    printf mem [0x25, 0x63] [promote c] = some [c] :=
  printf_item (.char c) hc (promote_low c) (show 1 < 1000 by decide)

theorem printf_literal (mem : UInt32 → UInt8) {c : UInt8} (h0 : c ≠ 0) (hc : c ≠ 0x25) :
    printf mem [c] [] = some [c] :=
  printf_item (.literal c) ⟨h0, hc⟩ trivial (show 1 < 1000 by decide)

/-- The characters of a part that are no blanks. -/
def partChars (filename : Name) (is : List Nat) : Str := (is.map filename.get).filter (· ≠ 0x20)

theorem printPart_ok (mem : UInt32 → UInt8) {filename : Name} {is : List Nat}
    (h0 : ∀ i ∈ is, filename.get i ≠ 0) (text : Str) (cnt : Nat) :
    printPart mem filename is text cnt =
      some (text ++ partChars filename is, cnt + (partChars filename is).length) := by
  induction is generalizing text cnt with
  | nil => simp [printPart, partChars]
  | cons i is ih =>
    have ih := ih fun j hj => h0 j (List.mem_cons_of_mem _ hj)
    rw [printPart]
    by_cases hblank : filename.get i = 0x20
    · have hskip : partChars filename (i :: is) = partChars filename is := by simp [partChars, hblank]
      rw [if_neg (not_not.mpr hblank), ih, hskip]
    · have hcons : partChars filename (i :: is) = filename.get i :: partChars filename is := by
        simp [partChars, hblank]
      rw [if_pos hblank, printf_char mem (h0 i List.mem_cons_self), Option.bind_eq_bind, Option.bind_some,
        ih, hcons, List.append_assoc, List.singleton_append, List.length_cons, Nat.add_assoc, Nat.add_comm 1]

theorem printBlanks_ok (mem : UInt32 → UInt8) (k : Nat) (text : Str) :
    printBlanks mem k text = some (text ++ List.replicate k 0x20) := by
  induction k generalizing text with
  | zero => simp [printBlanks]
  | succ k ih =>
    rw [printBlanks, printf_literal mem (by decide) (by decide), Option.bind_eq_bind, Option.bind_some, ih,
      List.append_assoc, List.singleton_append, ← List.replicate_succ]

/-- A part without blanks, as it stands in the name. -/
theorem map_charOrBlank {u : Str} {k : Nat} (hk : u.length ≤ k) :
    (List.range k).map (charOrBlank u) = u ++ List.replicate (k - u.length) 0x20 := by
  refine List.ext_getElem (by simp; omega) fun i hi hi' => ?_
  rw [List.getElem_map, List.getElem_range, charOrBlank]
  by_cases hiu : i < u.length
  · rw [List.getElem?_eq_getElem hiu, List.getElem_append_left hiu]
    rfl
  · rw [List.getElem?_eq_none (by omega), List.getElem_append_right (by omega), List.getElem_replicate]
    rfl

theorem filter_charOrBlank {u : Str} {k : Nat} (hk : u.length ≤ k) (hu : 0x20 ∉ u) :
    ((List.range k).map (charOrBlank u)).filter (· ≠ 0x20) = u := by
  rw [map_charOrBlank hk, List.filter_append, List.filter_eq_self.mpr, List.filter_eq_nil_iff.mpr,
    List.append_nil]
  · intro c hc
    simp [List.eq_of_mem_replicate hc]
  · intro c hc
    simpa using fun he : c = 0x20 => hu (he ▸ hc)

/-- The name with two parts without blanks. -/
def nameOfParts (fst ext : Str) : Name :=
  Bytes.ofFn fun i => if i < 8 then charOrBlank fst i else charOrBlank ext (i - 8)

/-- The dot between the parts is there only if the second one is. -/
def joinParts (fst ext : Str) : Str := if ext = [] then fst else fst ++ 0x2E :: ext

section Parts

variable {fst ext : Str}

theorem get_nameOfParts_fst (fst ext : Str) {i : Nat} (hi : i < 8) :
    (nameOfParts fst ext).get i = charOrBlank fst i := by
  rw [nameOfParts, Bytes.get_ofFn _ (by omega), if_pos hi]

theorem get_nameOfParts_ext (fst ext : Str) {i : Nat} (hi : i < 3) :
    (nameOfParts fst ext).get (8 + i) = charOrBlank ext i := by
  rw [nameOfParts, Bytes.get_ofFn _ (by omega), if_neg (by omega), Nat.add_sub_cancel_left]

theorem partChars_fst (hfst : fst.length ≤ 8) (hblank : 0x20 ∉ fst) :
    partChars (nameOfParts fst ext) (List.range 8) = fst := by
  have hmap : (List.range 8).map (nameOfParts fst ext).get = (List.range 8).map (charOrBlank fst) :=
    List.map_congr_left fun i hi => get_nameOfParts_fst fst ext (List.mem_range.mp hi)
  rw [partChars, hmap, filter_charOrBlank hfst hblank]

theorem partChars_ext (hext : ext.length ≤ 3) (hblank : 0x20 ∉ ext) :
    partChars (nameOfParts fst ext) [8, 9, 10] = ext := by
  have hmap : [8, 9, 10].map (nameOfParts fst ext).get = (List.range 3).map (charOrBlank ext) := by
    rw [show [8, 9, 10] = (List.range 3).map (8 + ·) from rfl, List.map_map]
    exact List.map_congr_left fun i hi => get_nameOfParts_ext fst ext (List.mem_range.mp hi)
  rw [partChars, hmap, filter_charOrBlank hext hblank]

theorem charOrBlank_ne_zero {u : Str} (h0 : 0 ∉ u) (i : Nat) : charOrBlank u i ≠ 0 := by
  rw [charOrBlank]
  by_cases hi : i < u.length
  · rw [List.getElem?_eq_getElem hi]
    exact fun he => h0 (he ▸ List.getElem_mem hi)
  · rw [List.getElem?_eq_none (by omega)]
    decide

/-- The ninth byte says whether there is a second part. -/
theorem charOrBlank_zero_iff (hblank : 0x20 ∉ ext) : charOrBlank ext 0 ≠ 0x20 ↔ ext ≠ [] := by
  cases ext with
  | nil => simp [charOrBlank]
  | cons c ext =>
    rw [List.mem_cons, not_or] at hblank
    refine iff_of_true (fun hc => hblank.1 ?_) (List.cons_ne_nil _ _)
    exact (show c = 0x20 from hc).symm

/-- **The parts are printed**, with the dot between them, and blanks up to 12 characters. -/
theorem filePrintName_ok (mem : UInt32 → UInt8) (hfst : fst.length ≤ 8) (hext : ext.length ≤ 3)
    (hblankF : 0x20 ∉ fst) (hblankE : 0x20 ∉ ext) (h0F : 0 ∉ fst) (h0E : 0 ∉ ext) :
    filePrintName mem (nameOfParts fst ext) =
      some (joinParts fst ext ++ List.replicate (12 - (joinParts fst ext).length) 0x20) := by
  have hne1 : ∀ i ∈ List.range 8, (nameOfParts fst ext).get i ≠ 0 := by
    intro i hi
    rw [get_nameOfParts_fst fst ext (List.mem_range.mp hi)]
    exact charOrBlank_ne_zero h0F i
  have hne2 : ∀ i ∈ [8, 9, 10], (nameOfParts fst ext).get i ≠ 0 := by
    intro i hi
    obtain ⟨j, hj, rfl⟩ : ∃ j < 3, i = 8 + j := by
      simp only [List.mem_cons, List.not_mem_nil, or_false] at hi
      exact ⟨i - 8, by omega, by omega⟩
    rw [get_nameOfParts_ext fst ext hj]
    exact charOrBlank_ne_zero h0E j
  have hninth : (nameOfParts fst ext).get 8 = charOrBlank ext 0 :=
    get_nameOfParts_ext fst ext (by decide : 0 < 3)
  rw [filePrintName, printPart_ok mem hne1, partChars_fst hfst hblankF, hninth]
  by_cases he : ext = []
  · have hno : ¬ charOrBlank ext 0 ≠ 0x20 := fun h => (charOrBlank_zero_iff hblankE).mp h he
    simp only [Option.bind_eq_bind, Option.bind_some, if_neg hno, printPart_ok mem hne2,
      partChars_ext hext hblankE, printBlanks_ok, joinParts, if_pos he]
    simp [he]
  · have hyes := (charOrBlank_zero_iff hblankE).mpr he
    simp only [Option.bind_eq_bind, Option.bind_some, if_pos hyes,
      printf_literal mem (c := 0x2E) (by decide) (by decide), printPart_ok mem hne2,
      partChars_ext hext hblankE, printBlanks_ok, joinParts, if_neg he]
    simp [Nat.add_comm, Nat.add_left_comm]

end Parts

/-! ## The round trip -/

/-- A character of a name: no dot, no slash, no blank, no end mark. -/
def NameChar (c : UInt8) : Prop := c ≠ 0x2E ∧ c ≠ slash ∧ c ≠ 0x20 ∧ c ≠ 0

instance (c : UInt8) : Decidable (NameChar c) := inferInstanceAs (Decidable (_ ∧ _))

/-- 1 to 8 characters, and behind a dot 1 to 3 more, or nothing. -/
def ShortName (name : Str) : Prop :=
  ∃ fst ext, name = joinParts fst ext ∧ 1 ≤ fst.length ∧ fst.length ≤ 8 ∧ ext.length ≤ 3 ∧
    ∀ c ∈ fst ++ ext, NameChar c

/-- The 11 bytes of the array that become the `Filename` of a node. -/
def nameOf (filename : Bytes 12) : Name := Bytes.ofFn filename.get

theorem nameChar_toUpper {c : UInt8} (h : NameChar c) : toUpper c ≠ 0x20 ∧ toUpper c ≠ 0 := by
  have hall : ∀ k : Fin 256, NameChar (UInt8.ofNat k.val) →
      toUpper (UInt8.ofNat k.val) ≠ 0x20 ∧ toUpper (UInt8.ofNat k.val) ≠ 0 := by
    decide +kernel
  have hc := hall ⟨c.toNat, c.toNat_lt⟩
  rw [UInt8.ofNat_toNat] at hc
  exact hc h

theorem map_joinParts (fst ext : Str) :
    (joinParts fst ext).map toUpper = joinParts (fst.map toUpper) (ext.map toUpper) := by
  rw [joinParts, joinParts]
  by_cases he : ext = []
  · rw [if_pos he, if_pos (List.map_eq_nil_iff.mpr he)]
  · rw [if_neg he, if_neg (mt List.map_eq_nil_iff.mp he), List.map_append, List.map_cons]
    rfl

/-- A name is cut at its dot. -/
theorem cut_joinParts {fst ext : Str} (h : ∀ c ∈ fst ++ ext, NameChar c) :
    (joinParts fst ext).takeWhile (· ≠ 0x2E) = fst ∧
      ((joinParts fst ext).dropWhile (· ≠ 0x2E)).filter (· ≠ 0x2E) = ext := by
  have hfst : ∀ c ∈ fst, decide (c ≠ 0x2E) = true := fun c hc =>
    decide_eq_true (h c (List.mem_append_left _ hc)).1
  have hext : ∀ c ∈ ext, decide (c ≠ 0x2E) = true := fun c hc =>
    decide_eq_true (h c (List.mem_append_right _ hc)).1
  rw [joinParts]
  by_cases he : ext = []
  · rw [if_pos he, List.takeWhile_eq_self_iff.mpr hfst, List.dropWhile_eq_nil_iff.mpr hfst, he]
    exact ⟨rfl, rfl⟩
  · rw [if_neg he, List.takeWhile_append_of_pos hfst, List.dropWhile_append_of_pos hfst]
    refine ⟨by simp, ?_⟩
    rw [List.dropWhile_cons_of_neg (by simp), List.filter_cons_of_neg (by simp),
      List.filter_eq_self.mpr hext]

/-- `generate_filename` on a short name. -/
theorem generateFilename_joinParts {fst ext : Str} (h1 : 1 ≤ fst.length) (h8 : fst.length ≤ 8)
    (h3 : ext.length ≤ 3) (h : ∀ c ∈ fst ++ ext, NameChar c) :
    generateFilename (joinParts fst ext) = .ok (nameOfParts (fst.map toUpper) (ext.map toUpper)) := by
  -- it does not start with a dot
  have hdots : ∀ k, joinParts fst ext ≠ dots k := by
    intro k he
    obtain ⟨c, fst', rfl⟩ := List.exists_cons_of_length_pos h1
    have hmem : c ∈ joinParts (c :: fst') ext := by
      rw [joinParts]
      split <;> simp
    rw [he, dots] at hmem
    exact (h c (by simp)).1 (List.eq_of_mem_replicate hmem)
  obtain ⟨htake, hdrop⟩ := cut_joinParts h
  have hF : store 31 (fst.map toUpper) = .ok (fst.map toUpper) :=
    store_ok (by rw [List.length_map]; omega)
  have hE : store 31 (ext.map toUpper) = .ok (ext.map toUpper) :=
    store_ok (by rw [List.length_map]; omega)
  rw [generateFilename, if_neg (hdots 1), if_neg (hdots 2), htake, hdrop]
  exact bind_eq_ok.mpr ⟨_, hF, bind_eq_ok.mpr ⟨_, hE, rfl⟩⟩

/-- What is printed for a short name. -/
theorem shortName_printed (mem : UInt32 → UInt8) {name : Str} (h : ShortName name) :
    ∃ filename, generateFilename name = .ok filename ∧
      ∃ text, filePrintName mem filename = some text ∧
        text.rdropWhile (· = 0x20) = name.map toUpper := by
  obtain ⟨fst, ext, rfl, h1, h8, h3, hchars⟩ := h
  refine ⟨_, generateFilename_joinParts h1 h8 h3 hchars, ?_⟩
  have hupper : ∀ c ∈ fst.map toUpper ++ ext.map toUpper, c ≠ 0x20 ∧ c ≠ 0 := by
    intro c hc
    rw [← List.map_append] at hc
    obtain ⟨d, hd, rfl⟩ := List.mem_map.mp hc
    exact nameChar_toUpper (hchars d hd)
  have hF : ∀ c ∈ fst.map toUpper, c ≠ 0x20 ∧ c ≠ 0 := fun c hc => hupper c (List.mem_append_left _ hc)
  have hE : ∀ c ∈ ext.map toUpper, c ≠ 0x20 ∧ c ≠ 0 := fun c hc => hupper c (List.mem_append_right _ hc)
  refine ⟨_, filePrintName_ok mem (by rwa [List.length_map]) (by rwa [List.length_map])
    (fun hm => (hF _ hm).1 rfl) (fun hm => (hE _ hm).1 rfl) (fun hm => (hF _ hm).2 rfl)
    (fun hm => (hE _ hm).2 rfl), ?_⟩
  rw [map_joinParts]
  set u := joinParts (fst.map toUpper) (ext.map toUpper) with hu
  have hblank : ∀ c ∈ u, c ≠ 0x20 := by
    intro c hc
    rw [hu, joinParts] at hc
    split at hc
    · exact (hF c hc).1
    · rcases List.mem_append.mp hc with hc | hc
      · exact (hF c hc).1
      · rcases List.mem_cons.mp hc with rfl | hc
        · decide
        · exact (hE c hc).1
  -- the blanks at the end go, and no character before them is one
  have hpad : ∀ k, (u ++ List.replicate k 0x20).rdropWhile (fun c => decide (c = 0x20)) = u := by
    intro k
    induction k with
    | zero =>
      rw [List.replicate_zero, List.append_nil]
      refine List.rdropWhile_eq_self_iff.mpr fun hne => ?_
      simpa using hblank _ (List.getLast_mem hne)
    | succ k ih =>
      rw [List.replicate_succ', ← List.append_assoc, List.rdropWhile_concat_pos _ _ _ (by simp), ih]
  exact hpad _

/-- **Short names.** `generate_filename` makes a name out of each, `file_print_name` prints that name
as it was, in capital letters and padded with blanks, and two of them make the same name exactly if
they are equal but for their case. -/
theorem shortName_roundTrip (mem : UInt32 → UInt8) {name name' : Str} {a a' : Bytes 50}
    (h : ShortName name) (h' : ShortName name') (ha : Holds a name) (ha' : Holds a' name')
    (filename filename' : Bytes 12) :
    ∃ out out', Arrays.generateFilename a filename = some out ∧
      Arrays.generateFilename a' filename' = some out' ∧
      (∃ text, filePrintName mem (nameOf out) = some text ∧
        text.rdropWhile (· = 0x20) = name.map toUpper) ∧
      (nameOf out = nameOf out' ↔ name.map toUpper = name'.map toUpper) := by
  obtain ⟨f, hf, text, htext, hstrip⟩ := shortName_printed mem h
  obtain ⟨f', hf', text', htext', hstrip'⟩ := shortName_printed mem h'
  obtain ⟨out, hout, hname⟩ := Arrays.generateFilename_refines ha hf filename
  obtain ⟨out', hout', hname'⟩ := Arrays.generateFilename_refines ha' hf' filename'
  have hout1 : nameOf out = f := hname
  have hout2 : nameOf out' = f' := hname'
  refine ⟨out, out', hout, hout', ⟨text, by rw [hout1, htext], hstrip⟩, ?_⟩
  rw [hout1, hout2]
  constructor
  · rintro rfl
    rw [htext] at htext'
    rw [← hstrip, ← hstrip', Option.some.inj htext']
  · intro hupper
    rw [← generateFilename_toUpper, hupper, generateFilename_toUpper, hf'] at hf
    exact (Except.ok.inj hf).symm

/-- `a.b` and `A.B`. -/
theorem shortName_roundTrip_ab : ShortName [0x61, 0x2E, 0x62] ∧
    ∃ out out', Arrays.generateFilename (Str.inArray [0x61, 0x2E, 0x62] 50) (Bytes.zero 12) = some out ∧
      Arrays.generateFilename (Str.inArray [0x41, 0x2E, 0x42] 50) (Bytes.zero 12) = some out' ∧
      nameOf out = nameOf out' := by
  have h : ShortName [0x61, 0x2E, 0x62] :=
    ⟨[0x61], [0x62], rfl, by decide, by decide, by decide,
      List.forall_mem_cons.mpr ⟨by decide, List.forall_mem_singleton.mpr (by decide)⟩⟩
  have h' : ShortName [0x41, 0x2E, 0x42] :=
    ⟨[0x41], [0x42], rfl, by decide, by decide, by decide,
      List.forall_mem_cons.mpr ⟨by decide, List.forall_mem_singleton.mpr (by decide)⟩⟩
  obtain ⟨out, out', hout, hout', -, hsame⟩ := shortName_roundTrip (fun _ => 0) h h'
    (holds_inArray (n := 50) (by decide) (by decide)) (holds_inArray (n := 50) (by decide) (by decide))
    (Bytes.zero 12) (Bytes.zero 12)
  exact ⟨h, out, out', hout, hout', hsame.mpr (by decide)⟩

end GwOS
