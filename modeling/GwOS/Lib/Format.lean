import GwOS.Lib.Stdio

/-!
# Formatted output (`vsprintf` of `lib/stdio.c`, `strcpy` of `lib/string.c`)

The output buffer is an object of its own. The format is given by its characters, and the
arguments are the words that stand on the stack from the last fixed parameter on, each read by
`va_arg` after a step of four bytes. A word that is passed for `%s` is a pointer into the memory.

`vsprintf` keeps the output position in a counter, but takes it from `strlen(s)` after each number
and each string. `vsprintfLoop_item` says that both agree as long as no end mark has been stored
among the characters, whatever the buffer held before.

- `vsprintf_formats`: a list of literals and directives comes out as the list of their texts.
-/

namespace GwOS

variable {n : Nat} {mem : UInt32 → UInt8}

/-! ## `strcpy` -/

/-- The loop of `strcpy`, from a pointer into a buffer. Each step stores one byte of the buffer. -/
def strcpyLoop (mem : UInt32 → UInt8) : Nat → Bytes n → Nat → UInt32 → Option (Bytes n)
  | 0, _, _, _ => none
  | k + 1, s, dst, src => do
    let s ← s.write? dst (mem src)
    if mem src = 0 then some s else strcpyLoop mem k s (dst + 1) (src + 1)

/-- `strcpy(&s[dst], src)`. -/
def strcpy (mem : UInt32 → UInt8) (s : Bytes n) (dst : Nat) (src : UInt32) : Option (Bytes n) :=
  strcpyLoop mem (n + 1) s dst src

/-- The string `u`, with its end mark, lies in the memory at `p`. -/
def StringIn (mem : UInt32 → UInt8) : UInt32 → List UInt8 → Prop
  | p, [] => mem p = 0
  | p, c :: u => c ≠ 0 ∧ mem p = c ∧ StringIn mem (p + 1) u

theorem strcpyLoop_ok {u : List UInt8} {p : UInt32} (hu : StringIn mem p u) (st : Nat) {k : Nat}
    (hk : u.length < k) (s : Bytes n) (hfit : st + u.length < n) :
    ∃ s', strcpyLoop mem k s st p = some s' ∧ s'.StringAt st u ∧ ∀ i < st, s'.get i = s.get i := by
  induction u generalizing p st k s with
  | nil =>
    obtain ⟨k, rfl⟩ : ∃ m, k = m + 1 := ⟨k - 1, by omega⟩
    have hmark : mem p = 0 := hu
    refine ⟨s.set st 0, ?_, ⟨hfit, List.not_mem_nil, Bytes.hasAt_nil, ?_⟩, fun i hi => ?_⟩
    · have hst : st < n := hfit
      rw [strcpyLoop, hmark, Bytes.write?_of_lt _ _ hst]
      rfl
    · exact Bytes.get_set_self _ _ hfit
    · exact Bytes.get_set_ne _ _ (by omega)
  | cons c u ih =>
    obtain ⟨k, rfl⟩ : ∃ m, k = m + 1 := ⟨k - 1, by omega⟩
    obtain ⟨hc, hmem, hrest⟩ := hu
    rw [List.length_cons] at hk hfit
    obtain ⟨s', hcopy, hstring, hkept⟩ := ih (k := k) hrest (st + 1) (by omega)
      (s.set st c) (by omega)
    refine ⟨s', ?_, ?_, fun i hi => ?_⟩
    · rw [strcpyLoop, hmem, Bytes.write?_of_lt _ _ (by omega)]
      show (if c = 0 then _ else _) = _
      rw [if_neg hc]
      exact hcopy
    · refine hstring.prepend (u := [c]) (Bytes.hasAt_singleton.mpr ?_) ?_
      · rw [hkept st (Nat.lt_succ_self st), Bytes.get_set_self _ _ (by omega)]
      · simpa using hc.symm
    · rw [hkept i (by omega), Bytes.get_set_ne _ _ (by omega)]

/-! ## `vsprintf` -/

/-- `format[i]`, with the end mark behind the last character. -/
def charAt (format : List UInt8) (i : Nat) : UInt8 := (format[i]?).getD 0

/-- The loop of `vsprintf` at character `i`, with the output position `len` and the argument
pointer `ap`. -/
def vsprintfLoop (mem : UInt32 → UInt8) (args : Nat → UInt32) (format : List UInt8) :
    Nat → Bytes n → Nat → Nat → Nat → Option (Bytes n × Nat)
  | 0, _, _, _, _ => none
  | k + 1, s, i, len, ap =>
    if i < format.length then
      if charAt format i = 0x25 then
        if charAt format (i + 1) = 0x78 then do
          let s ← itoa s len (args (ap + 1)) 16
          let len ← s.strlen?
          vsprintfLoop mem args format k s (i + 2) len (ap + 1)
        else if charAt format (i + 1) = 0x64 then do
          let s ← itoa s len (args (ap + 1)) 10
          let len ← s.strlen?
          vsprintfLoop mem args format k s (i + 2) len (ap + 1)
        else if charAt format (i + 1) = 0x73 then do
          let s ← strcpy mem s len (args (ap + 1))
          let len ← s.strlen?
          vsprintfLoop mem args format k s (i + 2) len (ap + 1)
        else if charAt format (i + 1) = 0x63 then do
          -- `va_arg(args, char)` reads the lowest byte of the word
          let s ← s.write? len (args (ap + 1)).toUInt8
          vsprintfLoop mem args format k s (i + 2) (len + 1) (ap + 1)
        else vsprintfLoop mem args format k s (i + 2) len ap
      else do
        let s ← s.write? len (charAt format i)
        vsprintfLoop mem args format k s (i + 1) (len + 1) ap
    else some (s, len)

/-- `vsprintf`: the buffer and the length returned. -/
def vsprintf (mem : UInt32 → UInt8) (args : Nat → UInt32) (s : Bytes n) (format : List UInt8)
    (ap : Nat) : Option (Bytes n × Nat) := do
  let (s, len) ← vsprintfLoop mem args format (format.length + 1) s 0 0 ap
  let s ← s.write? len 0x00
  let length ← s.strlen?
  some (s, length)

/-! ## Literals and directives -/

/-- A piece of a format, with what is passed for it. -/
inductive Item where
  | literal (c : UInt8)
  | hex (x : UInt32)
  | decimal (x : UInt32)
  | string (u : List UInt8)
  | char (c : UInt8)
  deriving DecidableEq

namespace Item

/-- The piece as the format has it. -/
def format : Item → List UInt8
  | literal c => [c]
  | hex _ => [0x25, 0x78]
  | decimal _ => [0x25, 0x64]
  | string _ => [0x25, 0x73]
  | char _ => [0x25, 0x63]

/-- What comes out for it. -/
def text : Item → List UInt8
  | literal c => [c]
  | hex x => Numeral.numeral 16 x.toNat
  | decimal x => Numeral.numeral 10 x.toNat
  | string u => u
  | char c => [c]

/-- The number of arguments it takes. -/
def words : Item → Nat
  | literal _ => 0
  | _ => 1

/-- The literals other than `%`, and the characters of which strings consist. -/
def Valid : Item → Prop
  | literal c => c ≠ 0 ∧ c ≠ 0x25
  | char c => c ≠ 0
  | _ => True

/-- The argument word for it. -/
def PassedAs (mem : UInt32 → UInt8) : Item → UInt32 → Prop
  | literal _, _ => True
  | hex x, w => w = x
  | decimal x, w => w = x
  | string u, w => StringIn mem w u
  | char c, w => w.toUInt8 = c

end Item

/-- The words on the stack behind `ap` are the arguments for the pieces. -/
def Passed (mem : UInt32 → UInt8) (args : Nat → UInt32) : Nat → List Item → Prop
  | _, [] => True
  | ap, item :: items => item.PassedAs mem (args (ap + 1)) ∧ Passed mem args (ap + item.words) items

theorem zero_not_mem_of_stringIn {p : UInt32} {u : List UInt8} (h : StringIn mem p u) : 0 ∉ u := by
  induction u generalizing p with
  | nil => exact List.not_mem_nil
  | cons c u ih =>
    obtain ⟨hc, -, hrest⟩ := h
    rw [List.mem_cons, not_or]
    exact ⟨hc.symm, ih hrest⟩

/-- No text has an end mark in it. -/
theorem Item.zero_not_mem_text {item : Item} (hv : item.Valid) {w : UInt32}
    (hp : item.PassedAs mem w) : 0 ∉ item.text := by
  cases item with
  | literal c => simpa [Item.text] using hv.1.symm
  | hex x => exact Numeral.zero_not_mem_numeral (by decide) (by decide)
  | decimal x => exact Numeral.zero_not_mem_numeral (by decide) (by decide)
  | string u => exact zero_not_mem_of_stringIn hp
  | char c => simpa [Item.text] using Ne.symm hv

/-! ## One piece after the other -/

section Pieces

variable {args : Nat → UInt32} {done pre rest : List UInt8} {s : Bytes n} {k ap : Nat}

theorem charAt_append (pre : List UInt8) (c : UInt8) (rest : List UInt8) :
    charAt (pre ++ c :: rest) pre.length = c := by
  rw [charAt, List.getElem?_append_right (le_refl _), Nat.sub_self]
  rfl

theorem charAt_append_succ (pre : List UInt8) (a c : UInt8) (rest : List UInt8) :
    charAt (pre ++ a :: c :: rest) (pre.length + 1) = c := by
  rw [charAt, List.getElem?_append_right (Nat.le_add_right ..), Nat.add_sub_cancel_left]
  rfl

/-- What a directive has stored behind the characters that were there, with its end mark. The
length of the whole is then the new output position. -/
theorem stored_behind (hs : s.HasAt 0 done) (h0 : 0 ∉ done) {u : List UInt8} {s' : Bytes n}
    (hstring : s'.StringAt done.length u) (hkept : ∀ i < done.length, s'.get i = s.get i) :
    s'.HasAt 0 (done ++ u) ∧ s'.strlen? = some (done.length + u.length) := by
  have hdone : s'.HasAt 0 done := hs.congr fun i _ hi => hkept i (by omega)
  have hwhole : s'.StringAt 0 (done ++ u) :=
    Bytes.StringAt.prepend (by rwa [Nat.zero_add]) hdone h0
  exact ⟨hwhole.bytes, by rw [hwhole.strlen, List.length_append]⟩

/-- A step of the loop at a numeric directive: both do the same, in their base. -/
theorem storeNumeral_behind {b : UInt32} (hb : 1 < b.toNat) (hb36 : b.toNat ≤ 36) (x : UInt32)
    (hs : s.HasAt 0 done) (h0 : 0 ∉ done)
    (hfit : done.length + (Numeral.numeral b.toNat x.toNat).length < n) :
    ∃ s', itoa s done.length x b = some s' ∧
      s'.HasAt 0 (done ++ Numeral.numeral b.toNat x.toNat) ∧
      s'.strlen? = some (done.length + (Numeral.numeral b.toNat x.toNat).length) := by
  obtain ⟨s', hstore, hstring, hkept⟩ := storeNumeral_ok hb hb36 x s done.length hfit
  obtain ⟨hbytes, hlen⟩ := stored_behind hs h0 hstring fun i hi => hkept i (.inl hi)
  exact ⟨s', hstore, hbytes, hlen⟩

/-- **One piece.** The loop stores the text of the piece behind the characters already there, and
goes on behind the piece. -/
theorem vsprintfLoop_item (pre rest : List UInt8) {item : Item} (hv : item.Valid) (hp : item.PassedAs mem (args (ap + 1)))
    (hs : s.HasAt 0 done) (h0 : 0 ∉ done) (hfit : done.length + item.text.length < n) :
    ∃ s', vsprintfLoop mem args (pre ++ (item.format ++ rest)) (k + 1) s pre.length done.length ap =
        vsprintfLoop mem args (pre ++ (item.format ++ rest)) k s' (pre ++ item.format).length
          (done ++ item.text).length (ap + item.words) ∧
      s'.HasAt 0 (done ++ item.text) := by
  have hin : pre.length < (pre ++ (item.format ++ rest)).length := by
    have hpos : 0 < item.format.length := by cases item <;> exact Nat.succ_pos _
    rw [List.length_append, List.length_append]
    omega
  rw [vsprintfLoop, if_pos hin, List.length_append, List.length_append]
  cases item with
  | literal c =>
    obtain ⟨-, hpercent⟩ := hv
    have hchar : charAt (pre ++ ([c] ++ rest)) pre.length = c := charAt_append ..
    have hfit' : done.length < n := by
      simp only [Item.text, List.length_singleton] at hfit
      omega
    have hbytes := hs.push (c := c) hfit'
    refine ⟨s.set done.length c, ?_, hbytes⟩
    simp only [Item.format, Item.text, Item.words, hchar]
    rw [if_neg hpercent, Bytes.write?_of_lt _ _ hfit']
    rfl
  | hex x =>
    obtain rfl : args (ap + 1) = x := hp
    have hpercent : charAt (pre ++ ([0x25, 0x78] ++ rest)) pre.length = 0x25 := charAt_append ..
    have hx : charAt (pre ++ ([0x25, 0x78] ++ rest)) (pre.length + 1) = 0x78 := charAt_append_succ ..
    obtain ⟨s', hitoa, hbytes, hlen⟩ := storeNumeral_behind (b := 16) (by decide) (by decide) _ hs h0 hfit
    refine ⟨s', ?_, hbytes⟩
    simp only [Item.format, Item.text, Item.words, hpercent, hx, if_true]
    rw [hitoa]
    show (s'.strlen? >>= _) = _
    rw [hlen]
    rfl
  | decimal x =>
    obtain rfl : args (ap + 1) = x := hp
    have hpercent : charAt (pre ++ ([0x25, 0x64] ++ rest)) pre.length = 0x25 := charAt_append ..
    have hd : charAt (pre ++ ([0x25, 0x64] ++ rest)) (pre.length + 1) = 0x64 := charAt_append_succ ..
    obtain ⟨s', hitoa, hbytes, hlen⟩ := storeNumeral_behind (b := 10) (by decide) (by decide) _ hs h0 hfit
    refine ⟨s', ?_, hbytes⟩
    simp only [Item.format, Item.text, Item.words, hpercent, hd, if_true]
    rw [if_neg (by decide), hitoa]
    show (s'.strlen? >>= _) = _
    rw [hlen]
    rfl
  | string u =>
    have hpercent : charAt (pre ++ ([0x25, 0x73] ++ rest)) pre.length = 0x25 := charAt_append ..
    have hd : charAt (pre ++ ([0x25, 0x73] ++ rest)) (pre.length + 1) = 0x73 := charAt_append_succ ..
    simp only [Item.text] at hfit
    obtain ⟨s', hcopy, hstring, hkept⟩ := strcpyLoop_ok (k := n + 1)
      (show StringIn mem _ u from hp) done.length (by omega) s hfit
    obtain ⟨hbytes, hlen⟩ := stored_behind hs h0 hstring hkept
    refine ⟨s', ?_, hbytes⟩
    simp only [Item.format, Item.text, Item.words, hpercent, hd, if_true]
    rw [if_neg (by decide), if_neg (by decide), strcpy, hcopy]
    show (s'.strlen? >>= _) = _
    rw [hlen]
    rfl
  | char c =>
    have hpercent : charAt (pre ++ ([0x25, 0x63] ++ rest)) pre.length = 0x25 := charAt_append ..
    have hd : charAt (pre ++ ([0x25, 0x63] ++ rest)) (pre.length + 1) = 0x63 := charAt_append_succ ..
    have hbyte : (args (ap + 1)).toUInt8 = c := hp
    have hfit' : done.length < n := by
      simp only [Item.text, List.length_singleton] at hfit
      omega
    have hbytes := hs.push (c := c) hfit'
    refine ⟨s.set done.length c, ?_, hbytes⟩
    simp only [Item.format, Item.text, Item.words, hpercent, hd, if_true]
    rw [if_neg (by decide), if_neg (by decide), if_neg (by decide), hbyte, Bytes.write?_of_lt _ _ hfit']
    rfl

/-- All pieces. The induction is on the pieces left; what is stored has no end mark in it. -/
theorem vsprintfLoop_items (pre done : List UInt8) (items : List Item) (hv : ∀ item ∈ items, item.Valid)
    (hp : Passed mem args ap items) (hs : s.HasAt 0 done) (h0 : 0 ∉ done)
    (hfit : done.length + (items.flatMap Item.text).length < n) (hk : items.length < k) :
    ∃ s', vsprintfLoop mem args (pre ++ items.flatMap Item.format) k s pre.length done.length ap =
        some (s', (done ++ items.flatMap Item.text).length) ∧
      s'.HasAt 0 (done ++ items.flatMap Item.text) ∧ 0 ∉ done ++ items.flatMap Item.text := by
  induction items generalizing k s pre done ap with
  | nil =>
    obtain ⟨k, rfl⟩ : ∃ m, k = m + 1 := ⟨k - 1, by omega⟩
    simp only [List.flatMap_nil, List.append_nil]
    refine ⟨s, ?_, hs, h0⟩
    rw [vsprintfLoop, if_neg (lt_irrefl _)]
  | cons item items ih =>
    obtain ⟨k, rfl⟩ : ∃ m, k = m + 1 := ⟨k - 1, by omega⟩
    obtain ⟨hp1, hp2⟩ := hp
    have hv1 := hv item List.mem_cons_self
    simp only [List.flatMap_cons] at hfit ⊢
    rw [List.length_append] at hfit
    obtain ⟨s1, hstep, hs1⟩ := vsprintfLoop_item (k := k) pre
      (items.flatMap Item.format) hv1 hp1 hs h0 (by omega)
    have h01 : 0 ∉ done ++ item.text := by
      rw [List.mem_append, not_or]
      exact ⟨h0, Item.zero_not_mem_text hv1 hp1⟩
    obtain ⟨s', hloop, hs', h0'⟩ := ih (k := k) (s := s1) (pre ++ item.format)
      (done ++ item.text) (fun i hi => hv i (List.mem_cons_of_mem _ hi)) hp2 hs1 h01
      (by rw [List.length_append]; omega) (by rw [List.length_cons] at hk; omega)
    rw [← List.append_assoc done]
    refine ⟨s', ?_, hs', h0'⟩
    rw [hstep, ← List.append_assoc pre]
    exact hloop

end Pieces

theorem length_le_flatMap_format (items : List Item) :
    items.length ≤ (items.flatMap Item.format).length := by
  induction items with
  | nil => exact le_refl _
  | cons item items ih =>
    have hpos : 1 ≤ item.format.length := by cases item <;> exact Nat.succ_pos _
    rw [List.flatMap_cons, List.length_append, List.length_cons]
    omega

/-- The end of `vsprintf`, behind a loop that has stored `u`. -/
theorem vsprintf_of_loop {args : Nat → UInt32} {s s1 : Bytes n} {format u : List UInt8} {ap : Nat}
    (hloop : vsprintfLoop mem args format (format.length + 1) s 0 0 ap = some (s1, u.length))
    (hbytes : s1.HasAt 0 u) (h0 : 0 ∉ u) (hfit : u.length < n) :
    ∃ s', vsprintf mem args s format ap = some (s', u.length) ∧ s'.StringAt 0 u := by
  have hstring : (s1.set u.length 0x00).StringAt 0 u := by
    refine ⟨by omega, h0, hbytes.set_outside (.inr (by omega)), ?_⟩
    rw [Nat.zero_add, Bytes.get_set_self _ _ hfit]
  refine ⟨_, ?_, hstring⟩
  rw [vsprintf, hloop]
  show (s1.write? u.length 0x00 >>= _) = _
  rw [Bytes.write?_of_lt _ _ hfit]
  show (Bytes.strlen? _ >>= _) = _
  rw [hstring.strlen]
  rfl

/-- `printf`: what it hands to `write`, up to the end mark. -/
def printf (mem : UInt32 → UInt8) (format : List UInt8) (args : List UInt32) : Option (List UInt8) := do
  let (buf, length) ← vsprintf mem (fun i => ((0 :: args)[i]?).getD 0) (Bytes.zero 1000) format 0
  some ((List.range length).map buf.get)

/-- A format of one piece. -/
theorem printf_item (item : Item) (hv : item.Valid) {args : List UInt32}
    (hp : item.PassedAs mem ((args[0]?).getD 0)) (hfit : item.text.length < 1000) :
    printf mem item.format args = some item.text := by
  obtain ⟨s1, hloop, hbytes, h0⟩ := vsprintfLoop_items (s := Bytes.zero 1000)
    (k := item.format.length + 1) [] [] [item] (by simpa using hv)
    (show Passed mem (fun i => ((0 :: args)[i]?).getD 0) 0 [item] from ⟨hp, trivial⟩) Bytes.hasAt_nil List.not_mem_nil (by simpa using hfit)
    (by have := length_le_flatMap_format [item]; simpa using Nat.lt_succ_of_le this)
  simp only [List.flatMap_cons, List.flatMap_nil, List.append_nil, List.nil_append, List.length_nil]
    at hloop hbytes h0
  obtain ⟨s', hrun, hstring⟩ := vsprintf_of_loop hloop hbytes h0 hfit
  rw [printf, hrun]
  exact congrArg some hstring.bytes.map_range

/-- **Formatted output.** For every sequence of literals other than `%` and of directives with
matching arguments, and for every content of the buffer, `vsprintf` stores the texts one after the
other, with an end mark, and returns their length. -/
theorem vsprintf_formats (mem : UInt32 → UInt8) (args : Nat → UInt32) (s : Bytes n) (ap : Nat)
    (items : List Item) (hv : ∀ item ∈ items, item.Valid) (hp : Passed mem args ap items)
    (hfit : (items.flatMap Item.text).length < n) :
    ∃ s', vsprintf mem args s (items.flatMap Item.format) ap =
        some (s', (items.flatMap Item.text).length) ∧ s'.StringAt 0 (items.flatMap Item.text) := by
  obtain ⟨s1, hloop, hbytes, h0⟩ := vsprintfLoop_items (s := s)
    (k := (items.flatMap Item.format).length + 1) [] [] items hv hp Bytes.hasAt_nil List.not_mem_nil
    (by simpa using hfit) (Nat.lt_succ_of_le (length_le_flatMap_format items))
  exact vsprintf_of_loop hloop hbytes h0 hfit

/-- A memory with the string `ok`. -/
def okMemory (p : UInt32) : UInt8 := if p = 0x1000 then 0x6F else if p = 0x1001 then 0x6B else 0

/-- The format `n%d%s%c%x` with 42, `ok`, `!` and 255, in a buffer full of other characters. -/
theorem vsprintf_formats_sample :
    ∃ s' : Bytes 20, vsprintf okMemory (fun i => [0, 42, 0x1000, 0x21, 255].getD i 0)
        (Bytes.ofFn fun _ => 0x3F) [0x6E, 0x25, 0x64, 0x25, 0x73, 0x25, 0x63, 0x25, 0x78] 0 = some (s', 8) ∧
      s'.StringAt 0 [0x6E, 0x34, 0x32, 0x6F, 0x6B, 0x21, 0x46, 0x46] := by
  have htext : [Item.literal 0x6E, .decimal 42, .string [0x6F, 0x6B], .char 0x21, .hex 255].flatMap
      Item.text = [0x6E, 0x34, 0x32, 0x6F, 0x6B, 0x21, 0x46, 0x46] := by
    decide
  obtain ⟨s', hrun, hstring⟩ := vsprintf_formats (n := 20) okMemory
    (fun i => [0, 42, 0x1000, 0x21, 255].getD i 0) (Bytes.ofFn fun _ => 0x3F) 0
    [.literal 0x6E, .decimal 42, .string [0x6F, 0x6B], .char 0x21, .hex 255]
    (by simp [Item.Valid]) ⟨trivial, rfl, ⟨by decide, by decide, by decide, by decide, rfl⟩, rfl, rfl, trivial⟩
    (by rw [htext]; decide)
  rw [htext] at hrun hstring
  exact ⟨s', hrun, hstring⟩

end GwOS
