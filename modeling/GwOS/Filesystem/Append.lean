import GwOS.Filesystem.Staging

/-!
# Appending one file to another

`append_file` walks the chain of the first file and extends the chain of the
second one by a cluster for every cluster it has read, except when the second
file ends one byte before a sector boundary: then it never allocates. The two
chains must be different ones for the walk to end, since otherwise the chain
grows as fast as it is read (`appendFile_ok`).

`CopiedBehind` says what the loop has written when it allocates: the bytes of the first
file, shifted behind those of the second one. Without allocation its iterations
all write the same sector (`appendLoop_noAlloc`).
-/

namespace GwOS

/-- The chain `K` from `c` has become `K ++ E`, with clusters `E` that were free, and
only sectors of the new chain have changed. -/
structure Extended (d d' : Disk) (c : Nat) (K E : List Nat) : Prop where
  chain : FileChain d' c (K ++ E)
  free : ∀ e ∈ E, IsFree d e
  touches : Touches d d' {k | k ∈ K ++ E} (sectorsOf (K ++ E))
  count : (freeClusters d).card ≤ (freeClusters d').card + E.length

namespace Extended

variable {d d' d'' : Disk} {c : Nat} {K E E' : List Nat}

theorem of_grown (h : Grown d d' c K E) : Extended d d' c K E := by
  refine ⟨h.chain, h.free, h.touches.mono (le_refl _) ?_, h.count⟩
  rintro x ⟨e, he, rfl⟩
  exact ⟨e, List.mem_append_right _ he, rfl⟩

/-- Writing a sector of the chain. -/
theorem write {l : Nat} (h : FileChain d c K) (hl : l ∈ K) (buff : Sector) :
    Extended d (Function.update d (l + 31) buff) c K [] := by
  have hsec : l + 31 ∈ sectorsOf (K ++ []) := ⟨l, by simpa using hl, rfl⟩
  have ht : Touches d (Function.update d (l + 31) buff) ∅ (sectorsOf (K ++ [])) :=
    Touches.update d buff (by omega) hsec
  have hfat : ∀ k, k < fatEntries → getFatNextCluster (Function.update d (l + 31) buff) k =
      getFatNextCluster d k := fun k hk => ht.fat k hk (Set.notMem_empty k)
  refine ⟨?_, fun e he => absurd he List.not_mem_nil, ht.mono (Set.empty_subset _) (le_refl _), ?_⟩
  · rw [List.append_nil]
    exact h.congr fun k hk => hfat k (h.lt_fatEntries hk)
  · refine (card_freeClusters_mono fun k hk => ?_).trans (Nat.le_add_right _ _)
    exact ht.isFree hk (Set.notMem_empty k)

theorem trans (h : Extended d d' c K E) (h' : Extended d' d'' c (K ++ E) E') :
    Extended d d'' c K (E ++ E') := by
  have hsub : ∀ {k : Nat}, k ∈ K ++ E → k ∈ K ++ (E ++ E') := fun hk => by
    rw [← List.append_assoc]
    exact List.mem_append_left _ hk
  refine ⟨by rw [← List.append_assoc]; exact h'.chain, ?_, ?_, ?_⟩
  · intro e he
    rcases List.mem_append.mp he with he | he
    · exact h.free e he
    · exact h.touches.free_back h.chain (h'.free e he)
  · refine Touches.trans (h.touches.mono (fun k hk => hsub hk) ?_) (h'.touches.mono ?_ ?_)
    · rintro x ⟨k, hk, rfl⟩
      exact ⟨k, hsub hk, rfl⟩
    · intro k hk
      rw [← List.append_assoc]
      exact hk
    · rintro x ⟨k, hk, rfl⟩
      exact ⟨k, by rw [← List.append_assoc]; exact hk, rfl⟩
  · have h1 := h.count
    have h2 := h'.count
    rw [List.length_append]
    omega

theorem reserved (h : Extended d d' c K E) {x : Nat} (hx : x < 2) :
    getFatNextCluster d' x = getFatNextCluster d x :=
  h.touches.reserved (fun k hk => (h.chain.range k hk).1) hx

/-- Another chain is not affected. -/
theorem other (h : Extended d d' c K E) {c₁ : Nat} {R : List Nat} (hR : FileChain d c₁ R)
    (hd : List.Disjoint R K) {k : Nat} (hk : k ∈ R) :
    getFatNextCluster d' k = getFatNextCluster d k := by
  refine h.touches.fat k (hR.lt_fatEntries hk) fun hm => ?_
  rcases List.mem_append.mp hm with hm | hm
  · exact hd hk hm
  · exact hR.not_free hk (h.free k hm)

end Extended

/-! ## Bytes along a chain -/

/-- The byte at position `p` along the clusters `K`. -/
def byteAt (d : Disk) : List Nat → Nat → UInt8
  | [], _ => 0
  | k :: K, p => if p < 512 then (d (k + 31)).get p else byteAt d K (p - 512)

theorem byteAt_congr {d d' : Disk} {K : List Nat} (h : ∀ k ∈ K, d' (k + 31) = d (k + 31)) (p : Nat) :
    byteAt d' K p = byteAt d K p := by
  induction K generalizing p with
  | nil => rfl
  | cons k K ih =>
    rw [byteAt, byteAt, h k (List.mem_cons_self ..), ih fun x hx => h x (List.mem_cons_of_mem _ hx)]

theorem byteAt_append_lt (d : Disk) {A : List Nat} (B : List Nat) {p : Nat}
    (hp : p < 512 * A.length) : byteAt d (A ++ B) p = byteAt d A p := by
  induction A generalizing p with
  | nil => exact absurd hp (Nat.not_lt_zero _)
  | cons a A ih =>
    rw [List.cons_append, byteAt, byteAt]
    rw [List.length_cons] at hp
    split
    · rfl
    · exact ih (by omega)

theorem byteAt_append (d : Disk) (A B : List Nat) (p : Nat) :
    byteAt d (A ++ B) (512 * A.length + p) = byteAt d B p := by
  induction A with
  | nil => rw [List.nil_append, List.length_nil, Nat.mul_zero, Nat.zero_add]
  | cons a A ih =>
    have hpos : 512 * (A.length + 1) + p - 512 = 512 * A.length + p := by omega
    rw [List.cons_append, byteAt, List.length_cons, if_neg (by omega), hpos, ih]

/-! ## The copy loop -/

/-- The sector that an iteration of the loop writes. -/
def shifted (id : Nat) (buff1 buff2 : Sector) : Sector :=
  Bytes.ofFn fun i => if id ≤ i then buff1.get (i - id) else buff2.get i

/-- What the loop has copied, from the last cluster `l` on: the first `id` bytes of the buffer,
then the bytes along `R`. -/
structure CopiedBehind (d d' : Disk) (l id : Nat) (buff : Sector) (R E : List Nat) : Prop where
  length : E.length = R.length
  data : ∀ sec, sec = 0 ∨ 19 ≤ sec → sec ∉ sectorsOf (l :: E) → d' sec = d sec
  bytes : ∀ p, p < id + 512 * R.length →
    byteAt d' (l :: E) p = if p < id then buff.get p else byteAt d R (p - id)

/-- The last sector is written behind the loop. -/
theorem CopiedBehind.last (d : Disk) (l : Nat) {id : Nat} (buff : Sector) (hid : id < 511) :
    CopiedBehind d (Function.update d (l + 31) buff) l id buff [] [] := by
  constructor
  · rfl
  · intro sec _ hsec
    have hne : sec ≠ l + 31 := fun he => hsec ⟨l, List.mem_cons_self .., he⟩
    rw [Function.update_of_ne hne]
  · intro p hp
    rw [List.length_nil, Nat.mul_zero, Nat.add_zero] at hp
    rw [if_pos hp, byteAt, if_pos (by omega), Function.update_self]

/-- One iteration, with the new cluster `e`, in front of the others. -/
theorem CopiedBehind.step {d d2 d' : Disk} {l e id c₁ : Nat} {buff buff' : Sector} {R E : List Nat}
    (h : CopiedBehind d2 d' e id buff' R E) (hid : id < 511)
    (hl : d2 (l + 31) = shifted id (d (c₁ + 31)) buff) (hlE : l ∉ e :: E)
    (hdata : ∀ sec, sec = 0 ∨ 19 ≤ sec → sec ≠ l + 31 → sec ≠ e + 31 → d2 sec = d sec)
    (hbuff : ∀ i < id, buff'.get i = (d (c₁ + 31)).get (512 - id + i))
    (hR : ∀ k ∈ R, k ≠ l ∧ k ≠ e) : CopiedBehind d d' l id buff (c₁ :: R) (e :: E) := by
  constructor
  · rw [List.length_cons, List.length_cons, h.length]
  · intro sec hs hsec
    have hne : sec ≠ l + 31 := fun he => hsec ⟨l, List.mem_cons_self .., he⟩
    have hne' : sec ≠ e + 31 := fun he => hsec ⟨e, by simp, he⟩
    rw [h.data sec hs, hdata sec hs hne hne']
    rintro ⟨k, hk, rfl⟩
    exact hsec ⟨k, List.mem_cons_of_mem _ hk, rfl⟩
  · intro p hp
    rw [List.length_cons] at hp
    have hl' : d' (l + 31) = shifted id (d (c₁ + 31)) buff := by
      rw [h.data _ (by omega), hl]
      rintro ⟨k, hk, he⟩
      have hkl : k = l := by omega
      exact hlE (hkl ▸ hk)
    rw [byteAt]
    by_cases hp512 : p < 512
    · -- the sector of `l`
      rw [if_pos hp512, hl', shifted, Bytes.get_ofFn _ hp512]
      by_cases hpid : p < id
      · rw [if_neg (by omega), if_pos hpid]
      · rw [if_pos (by omega), if_neg hpid, byteAt, if_pos (by omega)]
    · rw [if_neg hp512, h.bytes _ (by omega), if_neg (by omega : ¬ p < id), byteAt]
      by_cases hpid : p - 512 < id
      · -- the end of the sector that was read, carried over in the buffer
        have hpos : 512 - id + (p - 512) = p - id := by omega
        rw [if_pos hpid, if_pos (by omega), hbuff _ hpid, hpos]
      · have hpos : p - 512 - id = p - id - 512 := by omega
        have hkeep : ∀ k ∈ R, d2 (k + 31) = d (k + 31) := fun k hk => by
          obtain ⟨hkl, hke⟩ := hR k hk
          exact hdata _ (by omega) (by omega) (by omega)
        rw [if_neg hpid, if_neg (by omega), byteAt_congr hkeep, hpos]

section Steps

variable {d : Disk} {c₁ c₂ l : Nat} {A K : List Nat}

theorem appendLoop_end {n id : Nat} (buff : Sector) (he : IsEnd c₁) (hl : l ≤ 2848) :
    appendLoop (n + 1) d c₁ l id buff = .ok (true, Function.update d (l + 31) buff) := by
  rw [appendLoop, if_pos (isEndMark_iff.mpr he), u16_sec hl, writeSector_ok _ _ (sec_le hl)]
  rfl

/-- An iteration without allocation: the second file ends one byte before a boundary. -/
theorem appendLoop_step_noAlloc (n : Nat) (buff : Sector) (hs : ¬ IsEnd c₁) (hc₁ : c₁ ≤ 2848)
    (hl : l ≤ 2848) :
    appendLoop (n + 1) d c₁ l 511 buff =
      appendLoop n (Function.update d (l + 31) (shifted 511 (d (c₁ + 31)) buff))
        (getFatNextCluster d c₁) l 511
        (Bytes.ofFn fun i => if i < 511 then (d (c₁ + 31)).get (1 + i)
          else (shifted 511 (d (c₁ + 31)) buff).get i) := by
  have hfat : getFatNextCluster (Function.update d (l + 31) (shifted 511 (d (c₁ + 31)) buff)) c₁ =
      getFatNextCluster d c₁ :=
    getFat_update _ _ (by omega) (by unfold fatEntries; omega)
  rw [appendLoop, isEndMark_eq_false hs, if_neg Bool.false_ne_true, u16_sec hc₁, u16_sec hl,
    readSector_ok _ (sec_le hc₁)]
  simp only [bind, Except.bind]
  rw [writeSector_ok _ _ (sec_le hl)]
  have h511 : ¬ 511 < bytePerSec - 1 := by decide
  simp only [h511, if_false, pure, Except.pure, Bool.not_true, Bool.false_eq_true]
  rw [← shifted, hfat]
  rfl

/-- An iteration with allocation, when a cluster is free. -/
theorem appendLoop_step_alloc {id : Nat} (hid : id < 511) (buff : Sector)
    (hK : FileChain d c₂ (A ++ [l])) (h0 : getFatNextCluster d 0 ≠ 0)
    (h1 : getFatNextCluster d 1 ≠ 0) (hs : ¬ IsEnd c₁) (hc₁ : c₁ ≤ 2848)
    (hfree : 0 < (freeClusters d).card) :
    ∃ d2 e buff', Extended d d2 c₂ (A ++ [l]) [e] ∧
      d2 (l + 31) = shifted id (d (c₁ + 31)) buff ∧
      (∀ sec, sec = 0 ∨ 19 ≤ sec → sec ≠ l + 31 → sec ≠ e + 31 → d2 sec = d sec) ∧
      (∀ i < id, buff'.get i = (d (c₁ + 31)).get (512 - id + i)) ∧
      ∀ n, appendLoop (n + 1) d c₁ l id buff =
        appendLoop n d2 (getFatNextCluster d2 c₁) e id buff' := by
  have hlmem : l ∈ A ++ [l] := by simp
  have hle := (hK.range l hlmem).2
  generalize hb : shifted id (d (c₁ + 31)) buff = b
  -- the sector write, then the new cluster
  have hw := Extended.write hK hlmem b
  have hK1 : FileChain (Function.update d (l + 31) b) c₂ (A ++ [l]) := by simpa using hw.chain
  have hcount := hw.count
  rw [List.length_nil] at hcount
  obtain ⟨e, d2, happ, hg⟩ := Grown.append hK1 (by rw [hw.reserved (by decide)]; exact h0)
    (by rw [hw.reserved (by decide)]; exact h1) (by omega)
  have hx : Extended d d2 c₂ (A ++ [l]) [e] := by
    simpa using hw.trans (by simpa using Extended.of_grown hg)
  have hele := (hg.chain.range e (by simp)).2
  have hne : l ≠ e := by
    rintro rfl
    exact hK.not_free hlmem (hx.free l (List.mem_singleton_self l))
  have hkeep : ∀ sec, sec = 0 ∨ 19 ≤ sec → sec ≠ e + 31 →
      d2 sec = Function.update d (l + 31) b sec := by
    intro sec hsec hne
    refine hg.touches.data sec hsec ?_
    rintro ⟨k, hk, rfl⟩
    exact hne (by rw [List.mem_singleton.mp hk])
  refine ⟨d2, e, Bytes.ofFn fun i => if i < 512 - (512 - id) then
    (d (c₁ + 31)).get (512 - id + i) else (d2 (e + 31)).get i, hx, ?_, ?_, ?_, ?_⟩
  · rw [hkeep _ (by omega) (by omega), Function.update_self]
  · intro sec hsec hnl hne
    rw [hkeep sec hsec hne, Function.update_of_ne hnl]
  · intro i hi
    rw [Bytes.get_ofFn _ (by omega), if_pos (by omega)]
  · intro n
    have hid' : bytePerSec - (bytePerSec - id) = id := by
      unfold bytePerSec
      omega
    have hlt : id < bytePerSec - 1 := hid
    have hneg : ¬ ((e : Int) = -1) := by omega
    rw [appendLoop, isEndMark_eq_false hs, if_neg Bool.false_ne_true, u16_sec hc₁, u16_sec hle,
      readSector_ok _ (sec_le hc₁)]
    simp only [bind, Except.bind]
    rw [writeSector_ok _ _ (sec_le hle), ← shifted, hb]
    simp only [hlt, if_true, happ, hneg, if_false]
    rw [u16_sec hele, readSector_ok _ (sec_le hele)]
    have hback : 512 - (512 - id) = id := hid'
    simp only [pure, Except.pure, Bool.not_true, Bool.false_eq_true, if_false, hid', hback]
    rfl

end Steps

/-- What is left in the last sector when a single sector has been copied behind 511 bytes. -/
def rotated (buff : Sector) : Sector :=
  Bytes.ofFn fun i => if i < 511 then buff.get (1 + i) else buff.get 0

/-- Without allocation the chain stays, and only its last sector changes. The loop makes an
iteration for every cluster of `R`. -/
theorem appendLoop_noAlloc {c₂ : Nat} {K : List Nat} {l : Nat} (hl : l ∈ K) {R : List Nat} {d : Disk}
    {c₁ : Nat} (buff : Sector) (hK : FileChain d c₂ K)
    (hv : Chain.Visits (getFatNextCluster d) IsEnd c₁ R) (hr : ∀ k ∈ R, 2 ≤ k ∧ k ≤ 2848) :
    ∃ d', (∀ n, R.length < n → appendLoop n d c₁ l 511 buff = .ok (true, d')) ∧
      appendLoop R.length d c₁ l 511 buff = .error .outOfFuel ∧ Extended d d' c₂ K [] ∧
      (∀ sec, sec ≠ l + 31 → d' sec = d sec) ∧ (R = [] → d' (l + 31) = buff) ∧
      ∀ r, R = [r] → d' (l + 31) = rotated (d (r + 31)) := by
  have hle := (hK.range l hl).2
  induction R generalizing d c₁ buff with
  | nil =>
    refine ⟨_, fun n hn => ?_, rfl, Extended.write hK hl buff, fun sec hne => ?_, fun _ => ?_,
      fun r hr => absurd hr.symm (List.cons_ne_nil r [])⟩
    · obtain ⟨n, rfl⟩ := Nat.exists_eq_succ_of_ne_zero (Nat.ne_of_gt hn)
      exact appendLoop_end buff hv hle
    · rw [Function.update_of_ne hne]
    · rw [Function.update_self]
  | cons k R ih =>
    obtain ⟨rfl, hs, hrest⟩ := hv
    have hw := Extended.write hK hl (shifted 511 (d (c₁ + 31)) buff)
    have hrest' := hrest.congr fun x hx =>
      getFat_update d (shifted 511 (d (c₁ + 31)) buff) (by omega : 19 ≤ l + 31)
        (by have := (hr x (List.mem_cons_of_mem _ hx)).2; unfold fatEntries; omega)
    have hstep := fun n =>
      appendLoop_step_noAlloc (d := d) n buff hs (hr c₁ (List.mem_cons_self ..)).2 hle
    obtain ⟨d', hrun, hout, he, hdata, hlast, -⟩ := ih
      (Bytes.ofFn fun i => if i < 511 then (d (c₁ + 31)).get (1 + i)
        else (shifted 511 (d (c₁ + 31)) buff).get i) (by simpa using hw.chain) hrest'
      (fun x hx => hr x (List.mem_cons_of_mem _ hx))
    refine ⟨d', fun n hn => ?_, ?_, hw.trans (by simpa using he), fun sec hne => ?_,
      fun hnil => absurd hnil (List.cons_ne_nil _ _), fun r hone => ?_⟩
    · obtain ⟨n, rfl⟩ := Nat.exists_eq_succ_of_ne_zero (Nat.ne_zero_of_lt hn)
      rw [hstep]
      exact hrun n (Nat.lt_of_succ_lt_succ hn)
    · rw [List.length_cons, hstep]
      exact hout
    · rw [hdata sec hne, Function.update_of_ne hne]
    · obtain ⟨rfl, rfl⟩ := List.cons.inj hone
      rw [hlast rfl]
      refine Bytes.ext_get fun i hi => ?_
      rw [rotated, Bytes.get_ofFn _ hi, Bytes.get_ofFn _ hi]
      split
      · rfl
      · -- the one byte that the shift has put at the end
        have hi511 : i - 511 = 0 := by omega
        rw [shifted, Bytes.get_ofFn _ hi, if_pos (by omega), hi511]

/-- With allocation: every cluster read costs one new cluster. The chain that is read
must avoid the chain that grows. -/
theorem appendLoop_alloc {c₂ id : Nat} (hid : id < 511) {R : List Nat} {d : Disk}
    {c₁ : Nat} {A : List Nat} {l : Nat} (buff : Sector) (hK : FileChain d c₂ (A ++ [l]))
    (h0 : getFatNextCluster d 0 ≠ 0) (h1 : getFatNextCluster d 1 ≠ 0)
    (hv : Chain.Visits (getFatNextCluster d) IsEnd c₁ R) (hr : ∀ k ∈ R, 2 ≤ k ∧ k ≤ 2848)
    (hdis : ∀ k ∈ R, k ∉ A ++ [l] ∧ ¬ IsFree d k) (hfree : R.length ≤ (freeClusters d).card) :
    ∃ d' E, (∀ n, R.length < n → appendLoop n d c₁ l id buff = .ok (true, d')) ∧
      appendLoop R.length d c₁ l id buff = .error .outOfFuel ∧ Extended d d' c₂ (A ++ [l]) E ∧
      CopiedBehind d d' l id buff R E := by
  induction R generalizing d c₁ A l buff with
  | nil =>
    have hl : l ∈ A ++ [l] := by simp
    refine ⟨_, [], fun n hn => ?_, rfl, Extended.write hK hl buff, CopiedBehind.last d l buff hid⟩
    obtain ⟨n, rfl⟩ := Nat.exists_eq_succ_of_ne_zero (Nat.ne_of_gt hn)
    exact appendLoop_end buff hv (hK.range l hl).2
  | cons k R ih =>
    obtain ⟨rfl, hs, hrest⟩ := hv
    rw [List.length_cons] at hfree
    obtain ⟨d2, e, buff', hx, hl2, hdata, hbuff, hstep⟩ := appendLoop_step_alloc hid buff hK h0 h1
      hs (hr c₁ (List.mem_cons_self ..)).2 (by omega)
    have hcount := hx.count
    rw [List.length_singleton] at hcount
    have hfat : ∀ x ∈ c₁ :: R, getFatNextCluster d2 x = getFatNextCluster d x := by
      intro x hxR
      have := (hr x hxR).2
      refine hx.touches.fat x (by unfold fatEntries; omega) fun hm => ?_
      rcases List.mem_append.mp hm with hm | hm
      · exact (hdis x hxR).1 hm
      · exact (hdis x hxR).2 (hx.free x hm)
    have hdis' : ∀ x ∈ c₁ :: R, x ∉ A ++ [l] ++ [e] := by
      intro x hxR hm
      rcases List.mem_append.mp hm with hm | hm
      · exact (hdis x hxR).1 hm
      · exact (hdis x hxR).2 (hx.free x hm)
    obtain ⟨d', E, hrun, hout, he, hc⟩ := ih buff' hx.chain
      (by rw [hx.reserved (by decide)]; exact h0) (by rw [hx.reserved (by decide)]; exact h1)
      (hrest.congr fun x hxR => hfat x (List.mem_cons_of_mem _ hxR))
      (fun x hxR => hr x (List.mem_cons_of_mem _ hxR)) (fun x hxR =>
        ⟨hdis' x (List.mem_cons_of_mem _ hxR), fun hf =>
          (hdis x (List.mem_cons_of_mem _ hxR)).2 (hx.touches.free_back hx.chain hf)⟩)
      (by omega)
    refine ⟨d', [e] ++ E, fun n hn => ?_, ?_, hx.trans he, ?_⟩
    · obtain ⟨n, rfl⟩ := Nat.exists_eq_succ_of_ne_zero (Nat.ne_zero_of_lt hn)
      rw [hstep, hfat c₁ (List.mem_cons_self ..)]
      exact hrun n (Nat.lt_of_succ_lt_succ hn)
    · rw [List.length_cons, hstep, hfat c₁ (List.mem_cons_self ..)]
      exact hout
    · -- `l` is not among the clusters behind it
      have hlE : l ∉ e :: E := by
        have hnd := he.chain.visits.nodup
        simp only [List.append_assoc, List.singleton_append] at hnd
        exact (List.nodup_cons.mp (List.nodup_append.mp hnd).2.1).1
      refine hc.step hid hl2 hlE hdata hbuff fun x hxR => ⟨?_, ?_⟩
      · rintro rfl
        exact hdis' x (List.mem_cons_of_mem _ hxR) (by simp)
      · rintro rfl
        exact hdis' x (List.mem_cons_of_mem _ hxR) (by simp)

/-! ## The function -/

/-- The clusters `append_file` allocates, for a first chain of `len` clusters and a
second file of size `size`. -/
def appendNeed (len : Nat) (size : UInt32) : Nat :=
  if size.toNat % bytePerSec = 511 then 0
  else if size.toNat % bytePerSec = 0 then len + 1
  else len

/-- The path through `append_file` when the last sector of the second file has room. -/
theorem appendFile_path {s : Fs} {file1 file2 : FileRef} {l : Nat} {d' : Disk}
    (hlast : lastCluster s.sdb walkFuel (s.file file2).fstClus.toNat = .ok l) (hl : l ≤ 2848)
    (hid : (s.file file2).fileSize.toNat % bytePerSec ≠ 0)
    (hloop : appendLoop walkFuel s.sdb (s.file file1).fstClus.toNat l
      ((s.file file2).fileSize.toNat % bytePerSec) (s.sdb (l + 31)) = .ok (true, d')) :
    appendFile s file1 file2 = .ok (true, Fs.setFile { s with sdb := d' } file2
      { s.file file2 with fileSize := (s.file file2).fileSize + (s.file file1).fileSize }) := by
  rw [appendFile, hlast]
  simp only [bind, Except.bind]
  rw [u16_sec hl, readSector_ok _ (sec_le hl)]
  simp only [hid, if_false, pure, Except.pure, Bool.not_true, Bool.false_eq_true, hloop,
    Fs.file_setSdb]

/-- The path when it has none: a first cluster is appended before the loop. -/
theorem appendFile_path_full {s : Fs} {file1 file2 : FileRef} {l e : Nat} {d1 d' : Disk}
    (hlast : lastCluster s.sdb walkFuel (s.file file2).fstClus.toNat = .ok l) (hl : l ≤ 2848)
    (hid : (s.file file2).fileSize.toNat % bytePerSec = 0)
    (happ : appendACluster s.sdb l = .ok (e, d1)) (he : e ≤ 2848)
    (hloop : appendLoop walkFuel d1 (s.file file1).fstClus.toNat e 0 (d1 (e + 31)) =
      .ok (true, d')) :
    appendFile s file1 file2 = .ok (true, Fs.setFile { s with sdb := d' } file2
      { s.file file2 with fileSize := (s.file file2).fileSize + (s.file file1).fileSize }) := by
  have hneg : ¬ ((e : Int) = -1) := by omega
  rw [appendFile, hlast]
  simp only [bind, Except.bind]
  rw [u16_sec hl, readSector_ok _ (sec_le hl)]
  simp only [hid, if_true, happ, hneg, if_false]
  rw [u16_sec he, readSector_ok _ (sec_le he)]
  simp only [pure, Except.pure, Bool.not_true, Bool.false_eq_true, if_false, hloop, Fs.file_setSdb]

section AppendFile

variable {s : Fs} {f : Forest (Fin 100)} {chain : Fin 100 → List Nat} {i₁ i₂ : Fin 100}
  {A : List Nat} {l : Nat}

/-- The state after a successful call. -/
def appendedState (s : Fs) (i₁ i₂ : Fin 100) (d' : Disk) : Fs :=
  Fs.setFile { s with sdb := d' } (.slot i₂) { s.filelist i₂ with
    fileSize := (s.filelist i₂).fileSize + (s.filelist i₁).fileSize }

theorem lastCluster_chain {c : Nat} {d : Disk} (hK : FileChain d c (A ++ [l])) :
    lastCluster d walkFuel c = .ok l := by
  refine lastCluster_ok hK.visits ?_
  have := hK.length_lt
  rw [List.length_append] at this
  unfold walkFuel
  omega

theorem FileChain.length_lt_walkFuel {d : Disk} {c : Nat} {K : List Nat} (h : FileChain d c K) :
    K.length < walkFuel := by
  have := h.length_lt
  unfold walkFuel
  omega

/-- The chains of two files have nothing in common. -/
theorem Mounted.apart (h : Mounted s f chain) (hi₁ : Live s f i₁) (hi₂ : Live s f i₂)
    (hne : i₁ ≠ i₂) {k : Nat} (hk : k ∈ chain i₁) : k ∉ chain i₂ ∧ ¬ IsFree s.sdb k :=
  ⟨fun hm => h.volume.disjoint i₁ i₂ hi₁ hi₂ hne hk hm, (h.volume.chains i₁ hi₁).not_free hk⟩

/-- The second file ends one byte before a boundary. -/
theorem appendFile_rotate (h : Mounted s f chain) (hi₁ : Live s f i₁) (hi₂ : Live s f i₂)
    (hA : chain i₂ = A ++ [l]) (hid : (s.filelist i₂).fileSize.toNat % 512 = 511) :
    ∃ d', appendFile s (.slot i₁) (.slot i₂) = .ok (true, appendedState s i₁ i₂ d') ∧
      Extended s.sdb d' (firstClus s i₂) (A ++ [l]) [] ∧
      (∀ sec, sec ≠ l + 31 → d' sec = s.sdb sec) ∧
      ∀ r, chain i₁ = [r] → d' (l + 31) = rotated (s.sdb (r + 31)) := by
  have hK₁ := h.volume.chains i₁ hi₁
  have hK₂ := h.volume.chains i₂ hi₂
  rw [hA] at hK₂
  have hl : l ∈ A ++ [l] := by simp
  obtain ⟨d', hrun, -, he, hdata, -, hone⟩ := appendLoop_noAlloc hl (s.sdb (l + 31)) hK₂
    hK₁.visits hK₁.range
  refine ⟨d', appendFile_path (lastCluster_chain hK₂) (hK₂.range l hl).2 ?_ ?_, he, hdata, hone⟩
  · show (s.filelist i₂).fileSize.toNat % 512 ≠ 0
    omega
  · show appendLoop _ _ _ _ ((s.filelist i₂).fileSize.toNat % 512) _ = _
    rw [hid]
    exact hrun _ hK₁.length_lt_walkFuel

/-- The last sector of the second file has room for more than one byte. -/
theorem appendFile_shift (h : Mounted s f chain) (hi₁ : Live s f i₁) (hi₂ : Live s f i₂)
    (hne : i₁ ≠ i₂) (hA : chain i₂ = A ++ [l]) (hid : 0 < (s.filelist i₂).fileSize.toNat % 512)
    (hid' : (s.filelist i₂).fileSize.toNat % 512 < 511)
    (hfree : (chain i₁).length ≤ (freeClusters s.sdb).card) :
    ∃ d' E, appendFile s (.slot i₁) (.slot i₂) = .ok (true, appendedState s i₁ i₂ d') ∧
      Extended s.sdb d' (firstClus s i₂) (A ++ [l]) E ∧
      CopiedBehind s.sdb d' l ((s.filelist i₂).fileSize.toNat % 512) (s.sdb (l + 31)) (chain i₁) E := by
  have hK₁ := h.volume.chains i₁ hi₁
  have hK₂ := h.volume.chains i₂ hi₂
  have hdis : ∀ k ∈ chain i₁, k ∉ A ++ [l] ∧ ¬ IsFree s.sdb k := fun k hk =>
    hA ▸ h.apart hi₁ hi₂ hne hk
  rw [hA] at hK₂
  have hl : l ∈ A ++ [l] := by simp
  obtain ⟨d', E, hrun, -, he, hc⟩ := appendLoop_alloc hid' (s.sdb (l + 31)) hK₂ h.volume.entry0
    h.volume.entry1 hK₁.visits hK₁.range hdis hfree
  exact ⟨d', E, appendFile_path (lastCluster_chain hK₂) (hK₂.range l hl).2 (Nat.ne_of_gt hid)
    (hrun _ hK₁.length_lt_walkFuel), he, hc⟩

/-- The last sector of the second file is full, or the file is empty. -/
theorem appendFile_full (h : Mounted s f chain) (hi₁ : Live s f i₁) (hi₂ : Live s f i₂)
    (hne : i₁ ≠ i₂) (hA : chain i₂ = A ++ [l]) (hid : (s.filelist i₂).fileSize.toNat % 512 = 0)
    (hfree : (chain i₁).length + 1 ≤ (freeClusters s.sdb).card) :
    ∃ d' E, appendFile s (.slot i₁) (.slot i₂) = .ok (true, appendedState s i₁ i₂ d') ∧
      Extended s.sdb d' (firstClus s i₂) (A ++ [l]) E ∧ E.length = (chain i₁).length + 1 := by
  have hK₁ := h.volume.chains i₁ hi₁
  have hK₂ := h.volume.chains i₂ hi₂
  have hdis : ∀ k ∈ chain i₁, k ∉ A ++ [l] ∧ ¬ IsFree s.sdb k := fun k hk =>
    hA ▸ h.apart hi₁ hi₂ hne hk
  rw [hA] at hK₂
  have hl : l ∈ A ++ [l] := by simp
  obtain ⟨e, d1, happ, hg⟩ := Grown.append hK₂ h.volume.entry0 h.volume.entry1 (by omega)
  have hx := Extended.of_grown hg
  have hcount := hx.count
  rw [List.length_singleton] at hcount
  obtain ⟨d', E, hrun, -, he, hc⟩ := appendLoop_alloc (by decide : 0 < 511) (d1 (e + 31)) hx.chain
    (by rw [hx.reserved (by decide)]; exact h.volume.entry0)
    (by rw [hx.reserved (by decide)]; exact h.volume.entry1)
    (hK₁.visits.congr fun k hk => hx.other hK₁ (fun y hy => (hdis y hy).1) hk)
    hK₁.range (by
      intro k hk
      refine ⟨fun hm => ?_, fun hf => (hdis k hk).2 (hx.touches.free_back hx.chain hf)⟩
      rcases List.mem_append.mp hm with hm | hm
      · exact (hdis k hk).1 hm
      · exact (hdis k hk).2 (hx.free k hm)) (by omega)
  refine ⟨d', [e] ++ E, appendFile_path_full (lastCluster_chain hK₂) (hK₂.range l hl).2 hid happ
    (hx.chain.range e (by simp)).2 (hrun _ hK₁.length_lt_walkFuel), hx.trans he, ?_⟩
  rw [List.length_append, List.length_singleton, hc.length, Nat.add_comm]

/-- **`append_file`** on two live files. When it has to allocate, the files must be
different: the walk over a chain that grows with it has no end. -/
theorem appendFile_ok (h : Mounted s f chain) (hi₁ : Live s f i₁) (hi₂ : Live s f i₂)
    (hne : i₁ ≠ i₂ ∨ (s.filelist i₂).fileSize.toNat % bytePerSec = 511)
    (hneed : appendNeed (chain i₁).length (s.filelist i₂).fileSize ≤ (freeClusters s.sdb).card) :
    ∃ d' E, appendFile s (.slot i₁) (.slot i₂) = .ok (true, Fs.setFile { s with sdb := d' }
        (.slot i₂) { s.filelist i₂ with
          fileSize := (s.filelist i₂).fileSize + (s.filelist i₁).fileSize }) ∧
      Extended s.sdb d' (firstClus s i₂) (chain i₂) E := by
  have hlt : (s.filelist i₂).fileSize.toNat % bytePerSec < 512 := Nat.mod_lt _ (by decide)
  obtain ⟨A, l, hA⟩ : ∃ A l, chain i₂ = A ++ [l] :=
    ⟨_, _, (List.dropLast_append_getLast (h.volume.chains i₂ hi₂).nonempty).symm⟩
  rw [hA]
  by_cases h511 : (s.filelist i₂).fileSize.toNat % bytePerSec = 511
  · obtain ⟨d', hrun, he, -⟩ := appendFile_rotate h hi₁ hi₂ hA h511
    exact ⟨d', [], hrun, he⟩
  · have hne' : i₁ ≠ i₂ := hne.resolve_right h511
    rw [appendNeed, if_neg h511] at hneed
    by_cases h00 : (s.filelist i₂).fileSize.toNat % bytePerSec = 0
    · rw [if_pos h00] at hneed
      obtain ⟨d', E, hrun, he, -⟩ := appendFile_full h hi₁ hi₂ hne' hA h00 hneed
      exact ⟨d', E, hrun, he⟩
    · rw [if_neg h00] at hneed
      obtain ⟨d', E, hrun, he, -⟩ := appendFile_shift h hi₁ hi₂ hne' hA (Nat.pos_of_ne_zero h00)
        (by omega : (s.filelist i₂).fileSize.toNat % bytePerSec < 511) hneed
      exact ⟨d', E, hrun, he⟩

end AppendFile

/-- The extended file keeps its place in tree and volume. -/
theorem Extended.mounted {s : Fs} {f : Forest (Fin 100)} {chain : Fin 100 → List Nat}
    {i : Fin 100} {d' : Disk} {E : List Nat} (size : UInt32) (h : Mounted s f chain)
    (hi : Live s f i) (hx : Extended s.sdb d' (firstClus s i) (chain i) E) :
    Mounted (Fs.setFile { s with sdb := d' } (.slot i) { s.filelist i with fileSize := size }) f
      (Function.update chain i (chain i ++ E)) := by
  have hsub : ∀ k ∈ chain i ++ E, k ∈ chain i ∨ IsFree s.sdb k := fun k hk =>
    (List.mem_append.mp hk).imp id (hx.free k)
  exact h.resized hi rfl rfl hx.touches hsub hx.chain hsub


end GwOS
