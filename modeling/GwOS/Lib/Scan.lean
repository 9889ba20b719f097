import GwOS.Lib.Format

/-!
# Formatted input (`vscanf` and `s_to_uint` of `lib/stdio.c`)

`vscanf` reads one token from the keyboard for each directive (`sys_read`) and stores what it
stands for through the pointer that is passed. Both numeric directives call `s_to_uint`, which
takes letters for the digits from ten on, but multiplies by ten for each character.

- `scan_token`: what is stored for a numeral in any base is its digits' value in base ten.
- `scansBack_iff`: `%d` reads back every number that `%d` prints, and `%x` only the numbers below
  16.
-/

namespace GwOS

variable {n : Nat} {mem : UInt32 → UInt8}

/-! ## Tokens -/

/-- The characters that end a token: a newline, a carriage return, a blank. -/
def endsToken (c : UInt8) : Bool := c == 0x0A || c == 0x0D || c == 0x20

/-- The loop of `sys_read`, with the keys that are still to come. It waits when there are none. -/
def sysReadLoop : List UInt8 → Bytes n → Nat → Option (Bytes n × Nat × List UInt8)
  | [], _, _ => none
  | c :: keys, s, len =>
    if endsToken c then some (s, len, keys)
    else do
      let s ← s.write? len c
      sysReadLoop keys s (len + 1)

/-- `sys_read`. -/
def sysRead (keys : List UInt8) (s : Bytes n) : Option (Bytes n × List UInt8) := do
  let (s, len, keys) ← sysReadLoop keys s 0
  let s ← s.write? len 0x00
  some (s, keys)

/-- What `s_to_uint` does for one character. -/
def accumulate (x : UInt32) (c : UInt8) : UInt32 :=
  if 0x30 ≤ c ∧ c ≤ 0x39 then x * 10 + c.toUInt32 - 0x30
  else if 0x61 ≤ c ∧ c ≤ 0x7A then x * 10 + c.toUInt32 - 0x61 + 10
  else if 0x41 ≤ c ∧ c ≤ 0x5A then x * 10 + c.toUInt32 - 0x41 + 10
  else x

/-- The loop of `s_to_uint` at character `i`; `k` characters are left. -/
def sToUintLoop (value : Bytes n) : Nat → Nat → UInt32 → UInt32
  | 0, _, x => x
  | k + 1, i, x => sToUintLoop value k (i + 1) (accumulate x (value.get i))

/-- `s_to_uint`. -/
def sToUint (value : Bytes n) : Option UInt32 := do
  let len ← value.strlen?
  some (sToUintLoop value len 0 0)

/-! ## `vscanf` -/

/-- `*(uint32_t*)p`. -/
def loadWord (mem : UInt32 → UInt8) (p : UInt32) : UInt32 :=
  UInt32.ofNat ((mem p).toNat + ((mem (p + 1)).toNat <<< 8) + ((mem (p + 2)).toNat <<< 16) +
    ((mem (p + 3)).toNat <<< 24))

/-- `*(uint32_t*)p = w`. -/
def storeWord (mem : UInt32 → UInt8) (p w : UInt32) : UInt32 → UInt8 :=
  Function.update (Function.update (Function.update (Function.update mem p (UInt8.ofNat w.toNat))
    (p + 1) (UInt8.ofNat (w.toNat >>> 8))) (p + 2) (UInt8.ofNat (w.toNat >>> 16)))
    (p + 3) (UInt8.ofNat (w.toNat >>> 24))

/-- The loop of `strcpy`, from a buffer to a pointer. -/
def copyOut (value : Bytes n) : Nat → (UInt32 → UInt8) → UInt32 → Nat → Option (UInt32 → UInt8)
  | 0, _, _, _ => none
  | k + 1, mem, dst, i => do
    let c ← value.read? i
    let mem := Function.update mem dst c
    if c = 0 then some mem else copyOut value k mem (dst + 1) (i + 1)

/-- The loop of `vscanf` at character `i` of the format, with the argument pointer `ap`. The result
is the memory and the keys that have not been read. -/
def vscanfLoop (args : Nat → UInt32) (format : List UInt8) :
    Nat → (UInt32 → UInt8) → Bytes 1000 → List UInt8 → Nat → Nat →
      Option ((UInt32 → UInt8) × List UInt8)
  | 0, _, _, _, _, _ => none
  | k + 1, mem, value, keys, i, ap =>
    if i < format.length then
      if charAt format i = 0x25 then
        if charAt format (i + 1) = 0x64 ∨ charAt format (i + 1) = 0x78 then do
          let (value, keys) ← sysRead keys value
          let x ← sToUint value
          vscanfLoop args format k (storeWord mem (args (ap + 1)) x) value keys (i + 2) (ap + 1)
        else if charAt format (i + 1) = 0x63 ∨ charAt format (i + 1) = 0x73 then do
          let (value, keys) ← sysRead keys value
          let mem ← copyOut value 1000 mem (args (ap + 1)) 0
          vscanfLoop args format k mem value keys (i + 2) (ap + 1)
        else vscanfLoop args format k mem value keys (i + 2) ap
      else vscanfLoop args format k mem value keys (i + 1) ap
    else some (mem, keys)

/-- `vscanf`, with what the array `value` held before. -/
def vscanf (args : Nat → UInt32) (format : List UInt8) (ap : Nat) (mem : UInt32 → UInt8)
    (value : Bytes 1000) (keys : List UInt8) : Option ((UInt32 → UInt8) × List UInt8) :=
  vscanfLoop args format (format.length + 1) mem value keys 0 ap

/-! ## Reading a numeral -/

/-- A stored word reads back. -/
theorem loadWord_storeWord (mem : UInt32 → UInt8) (p w : UInt32) :
    loadWord (storeWord mem p w) p = w := by
  have h10 : p + 1 ≠ p := by grind
  have h20 : p + 2 ≠ p := by grind
  have h30 : p + 3 ≠ p := by grind
  have h21 : p + 2 ≠ p + 1 := by grind
  have h31 : p + 3 ≠ p + 1 := by grind
  have h32 : p + 3 ≠ p + 2 := by grind
  have b0 : storeWord mem p w p = UInt8.ofNat w.toNat := by
    rw [storeWord, Function.update_of_ne h30.symm, Function.update_of_ne h20.symm,
      Function.update_of_ne h10.symm, Function.update_self]
  have b1 : storeWord mem p w (p + 1) = UInt8.ofNat (w.toNat >>> 8) := by
    rw [storeWord, Function.update_of_ne h31.symm, Function.update_of_ne h21.symm, Function.update_self]
  have b2 : storeWord mem p w (p + 2) = UInt8.ofNat (w.toNat >>> 16) := by
    rw [storeWord, Function.update_of_ne h32.symm, Function.update_self]
  have b3 : storeWord mem p w (p + 3) = UInt8.ofNat (w.toNat >>> 24) := Function.update_self ..
  have hw := w.toNat_lt
  apply UInt32.toNat_inj.mp
  rw [loadWord, b0, b1, b2, b3, UInt32.toNat_ofNat']
  simp only [UInt8.toNat_ofNat', Nat.shiftLeft_eq, Nat.shiftRight_eq_div_pow]
  omega

/-- The token stands in the buffer, with its end mark, and is taken from the keys. -/
theorem sysReadLoop_ok {stop : UInt8} (hstop : endsToken stop = true) (keys done : List UInt8)
    {token : List UInt8} {s : Bytes n} (htoken : ∀ c ∈ token, endsToken c = false)
    (hs : s.HasAt 0 done) (hfit : (done ++ token).length < n) :
    ∃ s', sysReadLoop (token ++ stop :: keys) s done.length = some (s', (done ++ token).length, keys) ∧
      s'.HasAt 0 (done ++ token) := by
  induction token generalizing done s with
  | nil =>
    refine ⟨s, ?_, by rwa [List.append_nil]⟩
    rw [List.nil_append, List.append_nil, sysReadLoop, if_pos hstop]
  | cons c token ih =>
    rw [← List.singleton_append, ← List.append_assoc] at hfit ⊢
    have hroom : done.length < n := Bytes.length_lt_of_append hfit.le
    have hpush := hs.push (c := c) hroom
    obtain ⟨s', hloop, hbytes⟩ := ih (done ++ [c])
      (fun d hd => htoken d (List.mem_cons_of_mem _ hd)) hpush hfit
    refine ⟨s', ?_, hbytes⟩
    rw [List.append_assoc, List.singleton_append, sysReadLoop,
      if_neg (by rw [htoken c List.mem_cons_self]; exact Bool.false_ne_true), Bytes.write?_of_lt _ _ hroom]
    rw [List.length_append] at hloop
    exact hloop

theorem sysRead_ok {stop : UInt8} (hstop : endsToken stop = true) (keys : List UInt8)
    {token : List UInt8} (s : Bytes n) (htoken : ∀ c ∈ token, endsToken c = false) (h0 : 0 ∉ token)
    (hfit : token.length < n) :
    ∃ s', sysRead (token ++ stop :: keys) s = some (s', keys) ∧ s'.StringAt 0 token := by
  obtain ⟨s1, hloop, hbytes⟩ := sysReadLoop_ok hstop keys [] htoken
    (Bytes.hasAt_nil (b := s)) hfit
  refine ⟨s1.set token.length 0x00, ?_, ⟨by omega, h0, hbytes.set_outside (.inr (by simp)), ?_⟩⟩
  · rw [sysRead]
    show (sysReadLoop (token ++ stop :: keys) s ([] : List UInt8).length >>= _) = _
    rw [hloop]
    show (s1.write? token.length 0x00 >>= _) = _
    rw [Bytes.write?_of_lt _ _ hfit]
    rfl
  · rw [Nat.zero_add, Bytes.get_set_self _ _ hfit]

/-- A digit is accumulated in base ten, whatever base it comes from. -/
theorem accumulate_digit {d : Nat} (hd : d < 36) (v : Nat) :
    accumulate (UInt32.ofNat v) (Numeral.digitChar d) = UInt32.ofNat (v * 10 + d) := by
  have hchar : ∀ d : Fin 36,
      (0x30 ≤ Numeral.digitChar d.val ∧ Numeral.digitChar d.val ≤ 0x39 ∧
        (Numeral.digitChar d.val).toUInt32 = UInt32.ofNat d.val + 0x30) ∨
      (¬ (0x30 ≤ Numeral.digitChar d.val ∧ Numeral.digitChar d.val ≤ 0x39) ∧
        ¬ (0x61 ≤ Numeral.digitChar d.val ∧ Numeral.digitChar d.val ≤ 0x7A) ∧
        (0x41 ≤ Numeral.digitChar d.val ∧ Numeral.digitChar d.val ≤ 0x5A) ∧
        (Numeral.digitChar d.val).toUInt32 + 10 = UInt32.ofNat d.val + 0x41) := by decide
  rw [UInt32.ofNat_add, UInt32.ofNat_mul, accumulate]
  rcases hchar ⟨d, hd⟩ with ⟨hlow, hhigh, hvalue⟩ | ⟨hno, hsmall, hcapital, hvalue⟩
  · rw [if_pos ⟨hlow, hhigh⟩, hvalue]
    show UInt32.ofNat v * 10 + (UInt32.ofNat d + 0x30) - 0x30 = UInt32.ofNat v * 10 + UInt32.ofNat d
    grind
  · rw [if_neg hno, if_neg hsmall, if_pos hcapital]
    show UInt32.ofNat v * 10 + (Numeral.digitChar d).toUInt32 - 0x41 + 10 =
      UInt32.ofNat v * 10 + UInt32.ofNat d
    have hd10 : (Numeral.digitChar d).toUInt32 + 10 = UInt32.ofNat d + 0x41 := hvalue
    grind

/-- `s_to_uint` reads a numeral in any base as one in base ten. -/
theorem sToUintLoop_digits {ds : List Nat} (hds : ∀ d ∈ ds, d < 36) {value : Bytes n} {i v : Nat}
    (hvalue : value.HasAt i (ds.map Numeral.digitChar)) :
    sToUintLoop value ds.length i (UInt32.ofNat v) =
      UInt32.ofNat (ds.foldl (fun v d => v * 10 + d) v) := by
  induction ds generalizing i v with
  | nil => rfl
  | cons d ds ih =>
    rw [List.map_cons, Bytes.hasAt_cons] at hvalue
    obtain ⟨hd, hrest⟩ := hvalue
    rw [List.length_cons, sToUintLoop, hd, accumulate_digit (hds d List.mem_cons_self), List.foldl_cons]
    exact ih (fun e he => hds e (List.mem_cons_of_mem _ he)) hrest

theorem sToUint_numeral {b x : Nat} (hb : 1 < b) (hb36 : b ≤ 36) {value : Bytes n}
    (hvalue : value.StringAt 0 (Numeral.numeral b x)) :
    sToUint value = some (UInt32.ofNat (Numeral.value 10 (Numeral.numeral b x))) := by
  have hds : ∀ d ∈ Numeral.digits b x, d < 36 := fun d hd =>
    lt_of_lt_of_le (Numeral.digits_lt hb hd) hb36
  have hloop := sToUintLoop_digits (v := 0) hds hvalue.bytes
  have hlen : (Numeral.numeral b x).length = (Numeral.digits b x).length := by
    rw [Numeral.numeral, List.length_map]
  rw [sToUint, hvalue.strlen, hlen, Numeral.numeral, Numeral.value_map hds]
  rw [Numeral.foldl_horner, Nat.zero_mul, Nat.zero_add] at hloop
  exact congrArg some hloop

/-- No digit ends a token. -/
theorem endsToken_numeral {b x : Nat} (hb : 1 < b) (hb36 : b ≤ 36) {c : UInt8}
    (hc : c ∈ Numeral.numeral b x) : endsToken c = false := by
  have hall : ∀ d : Fin 36, endsToken (Numeral.digitChar d.val) = false := by decide
  obtain ⟨d, hd, rfl⟩ := List.mem_map.mp hc
  exact hall ⟨d, lt_of_lt_of_le (Numeral.digits_lt hb hd) hb36⟩

/-! ## Printing and scanning -/

/-- The numeric conversions. -/
inductive Conversion where
  | d
  | x
  deriving DecidableEq

namespace Conversion

/-- `%d` or `%x`. -/
def format : Conversion → List UInt8
  | d => [0x25, 0x64]
  | x => [0x25, 0x78]

def base : Conversion → Nat
  | d => 10
  | x => 16

/-- The number as a piece of a format. -/
def item : Conversion → UInt32 → Item
  | d, v => .decimal v
  | x, v => .hex v

theorem format_item (conv : Conversion) (v : UInt32) : (conv.item v).format = conv.format := by
  cases conv <;> rfl

theorem text_item (conv : Conversion) (v : UInt32) :
    (conv.item v).text = Numeral.numeral conv.base v.toNat := by
  cases conv <;> rfl

theorem one_lt_base (conv : Conversion) : 1 < conv.base := by cases conv <;> decide

theorem base_le (conv : Conversion) : conv.base ≤ 36 := by cases conv <;> decide

theorem numeral_length_lt (conv : Conversion) (v : UInt32) :
    (Numeral.numeral conv.base v.toNat).length < 1000 := by
  have hpow : v.toNat < conv.base ^ 32 :=
    lt_of_lt_of_le v.toNat_lt (Nat.pow_le_pow_left conv.one_lt_base 32)
  have := Numeral.numeral_length_le conv.one_lt_base (by decide : 0 < 32) hpow
  omega

end Conversion

/-- The number `x` comes back: `vsprintf` prints a token for it with the conversion, and `vscanf`,
given that token, a character that ends it and more keys, stores `x` with the same conversion and
leaves the other keys. -/
def ScansBack (conv : Conversion) (x : UInt32) : Prop :=
  ∀ (mem mem' : UInt32 → UInt8) (args args' : Nat → UInt32) (ap ap' : Nat) (s value : Bytes 1000)
    (stop : UInt8) (keys : List UInt8), args (ap + 1) = x → endsToken stop = true →
    ∃ s' token mem'', vsprintf mem args s conv.format ap = some (s', token.length) ∧
      s'.StringAt 0 token ∧
      vscanf args' conv.format ap' mem' value (token ++ stop :: keys) = some (mem'', keys) ∧
      loadWord mem'' (args' (ap' + 1)) = x

/-- `vsprintf` with one numeric conversion. -/
theorem vsprintf_conversion (mem : UInt32 → UInt8) (conv : Conversion) (args : Nat → UInt32) (ap : Nat) (s : Bytes 1000) :
    ∃ s', vsprintf mem args s conv.format ap =
        some (s', (Numeral.numeral conv.base (args (ap + 1)).toNat).length) ∧
      s'.StringAt 0 (Numeral.numeral conv.base (args (ap + 1)).toNat) := by
  have hfit := conv.numeral_length_lt (args (ap + 1))
  have h0 := Numeral.zero_not_mem_numeral (x := (args (ap + 1)).toNat) conv.one_lt_base conv.base_le
  have hv : (conv.item (args (ap + 1))).Valid := by cases conv <;> exact trivial
  have hp : Passed mem args ap [conv.item (args (ap + 1))] := by cases conv <;> exact ⟨rfl, trivial⟩
  obtain ⟨s1, hloop, hbytes, -⟩ := vsprintfLoop_items (s := s)
    (k := conv.format.length + 1) [] [] [conv.item (args (ap + 1))] (by simpa using hv) hp Bytes.hasAt_nil
    List.not_mem_nil (by simpa [Conversion.text_item] using hfit)
    (show 1 < conv.format.length + 1 by cases conv <;> decide)
  simp only [List.flatMap_cons, List.flatMap_nil, List.append_nil, List.nil_append,
    Conversion.format_item, Conversion.text_item, List.length_nil] at hloop hbytes
  exact vsprintf_of_loop hloop hbytes h0 hfit

/-- **What is stored for a numeral** is the value of its digits in base ten. -/
theorem scan_token (conv : Conversion) (x : Nat) (hfit : (Numeral.numeral conv.base x).length < 1000)
    (args : Nat → UInt32) (ap : Nat) (mem : UInt32 → UInt8) (value : Bytes 1000) {stop : UInt8}
    (hstop : endsToken stop = true) (keys : List UInt8) :
    ∃ mem', vscanf args conv.format ap mem value (Numeral.numeral conv.base x ++ stop :: keys) =
        some (mem', keys) ∧
      loadWord mem' (args (ap + 1)) = UInt32.ofNat (Numeral.value 10 (Numeral.numeral conv.base x)) := by
  obtain ⟨value', hread, hvalue⟩ := sysRead_ok hstop keys value
    (fun c hc => endsToken_numeral conv.one_lt_base conv.base_le hc)
    (Numeral.zero_not_mem_numeral conv.one_lt_base conv.base_le) hfit
  have hnumber := sToUint_numeral conv.one_lt_base conv.base_le hvalue
  set w := UInt32.ofNat (Numeral.value 10 (Numeral.numeral conv.base x))
  have hin : 0 < conv.format.length := by cases conv <;> decide
  have hpercent : charAt conv.format 0 = 0x25 := by cases conv <;> rfl
  have hnumeric : charAt conv.format (0 + 1) = 0x64 ∨ charAt conv.format (0 + 1) = 0x78 := by
    cases conv
    · exact .inl rfl
    · exact .inr rfl
  have hend : ¬ 0 + 2 < conv.format.length := by cases conv <;> decide
  have hlen : conv.format.length + 1 = 1 + 1 + 1 := by cases conv <;> rfl
  have hrest : vscanfLoop args conv.format (1 + 1) (storeWord mem (args (ap + 1)) w) value' keys (0 + 2)
      (ap + 1) = some (storeWord mem (args (ap + 1)) w, keys) := by
    rw [vscanfLoop, if_neg hend]
  refine ⟨storeWord mem (args (ap + 1)) w, ?_, loadWord_storeWord mem (args (ap + 1)) w⟩
  rw [vscanf, hlen, vscanfLoop, if_pos hin, if_pos hpercent, if_pos hnumeric, hread]
  simp only [Option.bind_eq_bind, Option.bind_some, hnumber]
  exact hrest

/-- The value read back is that of the numeral in base ten, modulo 2 to the 32. -/
theorem scansBack_value_iff (conv : Conversion) (x : UInt32) :
    ScansBack conv x ↔ Numeral.value 10 (Numeral.numeral conv.base x.toNat) % 2 ^ 32 = x.toNat := by
  have hfit := conv.numeral_length_lt x
  constructor
  · intro h
    obtain ⟨s1, hprint1, hstring1⟩ := vsprintf_conversion (fun _ => 0) conv (fun _ => x) 0
      (Bytes.zero 1000)
    obtain ⟨mem1, hscan1, hload1⟩ := scan_token conv x.toNat hfit (fun _ => 0) 0 (fun _ => 0)
      (Bytes.zero 1000) (show endsToken 0x20 = true from rfl) []
    obtain ⟨s2, token, mem2, hprint2, hstring2, hscan2, hload2⟩ := h (fun _ => 0) (fun _ => 0)
      (fun _ => x) (fun _ => 0) 0 0 (Bytes.zero 1000) (Bytes.zero 1000) 0x20 [] rfl rfl
    -- both runs are the same
    obtain rfl : s1 = s2 := by
      rw [hprint1] at hprint2
      exact congrArg Prod.fst (Option.some.inj hprint2)
    obtain rfl : Numeral.numeral conv.base x.toNat = token := hstring1.unique hstring2
    obtain rfl : mem1 = mem2 := by
      rw [hscan1] at hscan2
      exact congrArg Prod.fst (Option.some.inj hscan2)
    rw [hload1] at hload2
    rw [← UInt32.toNat_ofNat', hload2]
  · intro h mem mem' args args' ap ap' s value stop keys hx hstop
    obtain ⟨s', hprint, hstring⟩ := vsprintf_conversion mem conv args ap s
    rw [hx] at hprint hstring
    obtain ⟨mem'', hscan, hload⟩ := scan_token conv x.toNat hfit args' ap' mem' value hstop keys
    refine ⟨s', _, mem'', hprint, hstring, hscan, ?_⟩
    rw [hload]
    apply UInt32.toNat_inj.mp
    rw [UInt32.toNat_ofNat', h]

theorem value_base_iff (conv : Conversion) (x : UInt32) :
    Numeral.value 10 (Numeral.numeral conv.base x.toNat) % 2 ^ 32 = x.toNat ↔
      (conv = .d ∨ x < 16) := by
  have hx := x.toNat_lt
  cases conv with
  | d =>
    have hvalue := (Numeral.isNumeral_numeral (b := 10) (x := x.toNat) (by decide) (by decide)).value
    refine iff_of_true ?_ (.inl rfl)
    show Numeral.value 10 (Numeral.numeral 10 x.toNat) % 2 ^ 32 = x.toNat
    rw [hvalue, Nat.mod_eq_of_lt hx]
  | x =>
    -- the value in base ten is no greater, so nothing wraps around
    obtain ⟨hle, hiff⟩ := Numeral.value_numeral_eq_iff (a := 10) (b := 16) (x := x.toNat) (by decide)
      (by decide) (by decide)
    show Numeral.value 10 (Numeral.numeral 16 x.toNat) % 2 ^ 32 = x.toNat ↔ _
    rw [Nat.mod_eq_of_lt (lt_of_le_of_lt hle hx), hiff, UInt32.lt_iff_toNat_lt]
    simp

/-- **Reading back.** A number comes back through `%d`, and through `%x` exactly if it is below 16. -/
theorem scansBack_iff (conv : Conversion) (x : UInt32) :
    ScansBack conv x ↔ conv = .d ∨ x < 16 :=
  (scansBack_value_iff conv x).trans (value_base_iff conv x)

/-- 16 is printed as `10` with `%x`, and read back as ten. -/
theorem scansBack_fails : ¬ ∀ (conv : Conversion) (x : UInt32), ScansBack conv x := by
  intro h
  have hvalue := (value_base_iff .x 16).mp ((scansBack_value_iff .x 16).mp (h .x 16))
  exact absurd hvalue (by decide)

end GwOS
