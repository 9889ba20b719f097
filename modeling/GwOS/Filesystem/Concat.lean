import GwOS.Filesystem.Append
import GwOS.Filesystem.Removal

/-!
# What `append_file` makes of two files

The copy loop asks for a new cluster after every sector that it has written, whether there is
something left to put into it or not. So the second file gets one cluster for every cluster of
the first one, and one more if its last sector is full or it is empty. When the second file ends
one byte before a sector boundary the loop asks for none, and the sectors it copies overwrite
each other.

- `appendFile_concat_iff`: for which sizes the second file is the concatenation of the two, on as
  many clusters as it needs.
- `copyEnds_iff`: when the loop ends with the clusters that the first file had at the call, so
  that the call returns (`CopyEnds.appendFile`). A file appended to itself is read as fast as it
  grows.
-/

namespace GwOS

/-! ## Content -/

/-- The first `n` bytes along the clusters `K`. -/
def content (d : Disk) (K : List Nat) (n : Nat) : List UInt8 := (List.range n).map (byteAt d K)

/-- One content behind another, position by position. -/
theorem map_range_append_iff {α : Type*} {g g₁ g₂ : Nat → α} {m n : Nat} :
    (List.range (m + n)).map g = (List.range m).map g₁ ++ (List.range n).map g₂ ↔
      (∀ p < m, g p = g₁ p) ∧ ∀ p < n, g (m + p) = g₂ p := by
  rw [List.range_add, List.map_append, List.map_map]
  constructor
  · intro h
    obtain ⟨h₁, h₂⟩ := List.append_inj h (by simp)
    exact ⟨fun p hp => List.map_inj_left.mp h₁ p (List.mem_range.mpr hp),
      fun p hp => List.map_inj_left.mp h₂ p (List.mem_range.mpr hp)⟩
  · rintro ⟨h₁, h₂⟩
    congr 1
    · exact List.map_inj_left.mpr fun p hp => h₁ p (List.mem_range.mp hp)
    · exact List.map_inj_left.mpr fun p hp => h₂ p (List.mem_range.mp hp)

/-- The bytes along a chain whose first sectors are `B`. -/
theorem byteAt_zip {d : Disk} {g : Nat → UInt8} {K : List Nat} {B : List Sector} {q : Nat}
    (hd : ∀ x ∈ K.zip B, d (x.1 + 31) = x.2)
    (hg : ∀ t b, B[t]? = some b → ∀ j, j < 512 → b.get j = g (512 * (q + t) + j))
    (hlen : B.length ≤ K.length) (p : Nat) (hp : p < 512 * B.length) :
    byteAt d K p = g (512 * q + p) := by
  induction B generalizing K q p with
  | nil => exact absurd hp (Nat.not_lt_zero p)
  | cons b B ih =>
    obtain ⟨k, K, rfl⟩ : ∃ k K', K = k :: K' := by
      cases K with
      | nil => exact absurd hlen (Nat.not_succ_le_zero _)
      | cons k K => exact ⟨k, K, rfl⟩
    rw [byteAt, hd (k, b) List.mem_cons_self]
    by_cases hlt : p < 512
    · rw [if_pos hlt]
      exact hg 0 b rfl p hlt
    · have hrest := ih (K := K) (q := q + 1)
        (fun x hx => hd x (List.mem_cons_of_mem _ hx))
        (fun t b' hb' j hj => by
          rw [hg (t + 1) b' hb' j hj, show q + (t + 1) = q + 1 + t by omega])
        (Nat.le_of_succ_le_succ hlen) (p - 512) (by rw [List.length_cons] at hp; omega)
      rw [if_neg hlt, hrest, show 512 * (q + 1) + (p - 512) = 512 * q + p by omega]

theorem length_ofFn_sector (B : Sector) : (List.ofFn B).length = 512 := List.length_ofFn

/-- Any number of bytes of the first sector. -/
theorem content_first (d : Disk) (k : Nat) (K : List Nat) {n : Nat} (hn : n ≤ 512) :
    content d (k :: K) n = (List.ofFn (d (k + 31))).take n := by
  have hlen : (content d (k :: K) n).length = ((List.ofFn (d (k + 31))).take n).length := by
    rw [content, List.length_map, List.length_range, List.length_take, length_ofFn_sector]
    omega
  refine List.ext_getElem hlen fun p hp _ => ?_
  have hlt : p < n := by simpa [content] using hp
  have hin : p < (List.ofFn (d (k + 31))).length := by
    rw [length_ofFn_sector]
    omega
  have hget : (List.ofFn (d (k + 31)))[p] = (d (k + 31)) ⟨p, by omega⟩ := List.getElem_ofFn _
  rw [List.getElem_take, hget]
  simp [content, byteAt, Bytes.get, show p < 512 by omega]

/-- The first sector of a chain and then the rest. -/
theorem content_cons (d : Disk) (k : Nat) (K : List Nat) (m : Nat) :
    content d (k :: K) (512 + m) = List.ofFn (d (k + 31)) ++ content d K m := by
  have hfirst : content d (k :: K) 512 = List.ofFn (d (k + 31)) := by
    rw [content_first d k K le_rfl, List.take_of_length_le (length_ofFn_sector _).le]
  rw [← hfirst, content, content, content, map_range_append_iff]
  refine ⟨fun p _ => rfl, fun p _ => ?_⟩
  rw [byteAt, if_neg (by omega), Nat.add_sub_cancel_left]

/-- A shorter content. -/
theorem content_take (d : Disk) (K : List Nat) {m n : Nat} (h : m ≤ n) :
    (content d K n).take m = content d K m := by
  rw [content, content, ← List.map_take, List.take_range, Nat.min_eq_left h]

theorem length_content (d : Disk) (K : List Nat) (n : Nat) : (content d K n).length = n := by
  rw [content, List.length_map, List.length_range]

/-- The number of clusters of a file with `size` bytes. -/
def clustersFor (size : Nat) : Nat := max 1 ((size + 511) / 512)

/-- The chain of the file has as many clusters as its size asks for. -/
def ExactChain (s : Fs) (chain : Fin 100 → List Nat) (i : Fin 100) : Prop :=
  (chain i).length = clustersFor (s.filelist i).fileSize.toNat

/-- The second file has become the concatenation, and everything else is as it was. -/
structure Concatenated (s s' : Fs) (f : Forest (Fin 100)) (chain : Fin 100 → List Nat)
    (i₁ i₂ : Fin 100) : Prop where
  size : (s'.filelist i₂).fileSize.toNat =
    (s.filelist i₂).fileSize.toNat + (s.filelist i₁).fileSize.toNat
  joined : ∃ K', FileChain s'.sdb (firstClus s' i₂) K' ∧
    K'.length = clustersFor (s'.filelist i₂).fileSize.toNat ∧
    content s'.sdb K' ((s.filelist i₂).fileSize.toNat + (s.filelist i₁).fileSize.toNat) =
      content s.sdb (chain i₂) (s.filelist i₂).fileSize.toNat ++
        content s.sdb (chain i₁) (s.filelist i₁).fileSize.toNat
  others : ∀ r, r ≠ .slot i₂ → s'.file r = s.file r ∧ (LiveRef s f r →
    DirOn s' r (dirSectors chain r) ∧ ∀ sec ∈ dirSectors chain r, s'.sdb sec = s.sdb sec)

/-- The sizes for which `append_file` concatenates. Either the second file ends inside a sector
with room for more than one byte and the last piece of the first file does not fit there, so that
the cluster it asks for last is needed. Or the second file has room for one byte, the first has no
more, and the bytes that overwrite the last sector are the ones that were there. -/
def AppendFits (s : Fs) (chain : Fin 100 → List Nat) (i₁ i₂ : Fin 100) : Prop :=
  let size₁ := (s.filelist i₁).fileSize.toNat
  let size₂ := (s.filelist i₂).fileSize.toNat
  (0 < size₂ % 512 ∧ size₂ % 512 < 511 ∧ 0 < size₁ ∧
      512 < size₂ % 512 + ((size₁ - 1) % 512 + 1)) ∨
    (size₂ % 512 = 511 ∧ size₁ ≤ 1 ∧ ∀ p < 511,
      byteAt s.sdb (chain i₂) (size₂ - 511 + p) = byteAt s.sdb (chain i₁) (p + 1))

section Concat

variable {s : Fs} {f : Forest (Fin 100)} {chain : Fin 100 → List Nat} {i₁ i₂ : Fin 100}
  {A E : List Nat} {l : Nat} {d' : Disk}

theorem appendedState_file (d' : Disk) {r : FileRef} (hr : r ≠ .slot i₂) :
    (appendedState s i₁ i₂ d').file r = s.file r := by
  cases r with
  | rootfile => rfl
  | slot j =>
    have hj : j ≠ i₂ := fun he => hr (he ▸ rfl)
    exact Function.update_of_ne hj _ _

theorem appendedState_filelist_self : (appendedState s i₁ i₂ d').filelist i₂ =
    { s.filelist i₂ with fileSize := (s.filelist i₂).fileSize + (s.filelist i₁).fileSize } :=
  Function.update_self ..

/-- The sum of the sizes does not wrap. -/
theorem ExactChain.size_add (d' : Disk) (h : Mounted s f chain) (hi₁ : Live s f i₁)
    (hi₂ : Live s f i₂) (hex₁ : ExactChain s chain i₁) (hex₂ : ExactChain s chain i₂) :
    ((appendedState s i₁ i₂ d').filelist i₂).fileSize.toNat =
      (s.filelist i₂).fileSize.toNat + (s.filelist i₁).fileSize.toNat := by
  have hlt₁ := (h.volume.chains i₁ hi₁).length_lt
  have hlt₂ := (h.volume.chains i₂ hi₂).length_lt
  rw [hex₁, clustersFor] at hlt₁
  rw [hex₂, clustersFor] at hlt₂
  rw [appendedState_filelist_self]
  show ((s.filelist i₂).fileSize + (s.filelist i₁).fileSize).toNat = _
  rw [UInt32.toNat_add]
  omega

/-- Every other file keeps its record, its chain and its sectors. -/
theorem Extended.others (h : Mounted s f chain) (hi₂ : Live s f i₂)
    (hx : Extended s.sdb d' (firstClus s i₂) (chain i₂) E) {r : FileRef} (hr : r ≠ .slot i₂)
    (hlive : LiveRef s f r) :
    DirOn (appendedState s i₁ i₂ d') r (dirSectors chain r) ∧
      ∀ sec ∈ dirSectors chain r, d' sec = s.sdb sec := by
  have hm : Mounted (appendedState s i₁ i₂ d') f _ :=
    hx.mounted ((s.filelist i₂).fileSize + (s.filelist i₁).fileSize) h hi₂
  have hfile : (appendedState s i₁ i₂ d').file r = s.file r := appendedState_file d' hr
  have hlive' : LiveRef (appendedState s i₁ i₂ d') f r := by
    cases r with
    | rootfile => trivial
    | slot j =>
      have hj : (appendedState s i₁ i₂ d').filelist j = s.filelist j := hfile
      exact ⟨hlive.1, by rw [hj]; exact hlive.2⟩
  have hsame : dirSectors (Function.update chain i₂ (chain i₂ ++ E)) r = dirSectors chain r := by
    cases r with
    | rootfile => rfl
    | slot j =>
      have hj : j ≠ i₂ := fun he => hr (he ▸ rfl)
      rw [dirSectors, dirSectors, Function.update_of_ne hj]
  refine ⟨hsame ▸ hm.dirOn hlive', fun sec hsec => ?_⟩
  refine hx.touches.data sec (.inr (dirSectors_range h hlive hsec).1) ?_
  rintro ⟨k, hk, rfl⟩
  rcases List.mem_append.mp hk with hk | hk
  · have hi₂' : LiveRef s f (.slot i₂) := hi₂
    exact dirSectors_disjoint h hlive hi₂' hr hsec (List.mem_map_of_mem hk)
  · exact dirSectors_ne_free h hlive hsec (hx.free k hk) rfl

/-- What is left to show when the call has returned: the length of the chain and the bytes along
it. -/
theorem concatenated_iff (h : Mounted s f chain) (hi₁ : Live s f i₁) (hi₂ : Live s f i₂)
    (hex₁ : ExactChain s chain i₁) (hex₂ : ExactChain s chain i₂)
    (hx : Extended s.sdb d' (firstClus s i₂) (chain i₂) E)
    (hrun : appendFile s (.slot i₁) (.slot i₂) = .ok (true, appendedState s i₁ i₂ d')) :
    (∃ s', appendFile s (.slot i₁) (.slot i₂) = .ok (true, s') ∧
        Concatenated s s' f chain i₁ i₂) ↔
      (chain i₂ ++ E).length =
          clustersFor ((s.filelist i₂).fileSize.toNat + (s.filelist i₁).fileSize.toNat) ∧
        (∀ p < (s.filelist i₂).fileSize.toNat,
          byteAt d' (chain i₂ ++ E) p = byteAt s.sdb (chain i₂) p) ∧
        ∀ p < (s.filelist i₁).fileSize.toNat,
          byteAt d' (chain i₂ ++ E) ((s.filelist i₂).fileSize.toNat + p) =
            byteAt s.sdb (chain i₁) p := by
  have hsize := ExactChain.size_add d' h hi₁ hi₂ hex₁ hex₂
  have hfirst : firstClus (appendedState s i₁ i₂ d') i₂ = firstClus s i₂ := by
    rw [firstClus, appendedState_filelist_self]
    rfl
  constructor
  · rintro ⟨s', hrun', hc⟩
    obtain rfl : appendedState s i₁ i₂ d' = s' := by
      rw [hrun] at hrun'
      exact (Prod.mk.inj (Except.ok.inj hrun')).2
    obtain ⟨K', hK', hlen, hbytes⟩ := hc.joined
    rw [hfirst] at hK'
    obtain rfl : chain i₂ ++ E = K' := hx.chain.unique hK'
    rw [hsize] at hlen
    exact ⟨hlen, map_range_append_iff.mp hbytes⟩
  · rintro ⟨hlen, hbytes⟩
    refine ⟨_, hrun, hsize, ⟨chain i₂ ++ E, ?_, ?_, map_range_append_iff.mpr hbytes⟩, ?_⟩
    · rw [hfirst]
      exact hx.chain
    · rw [hsize]
      exact hlen
    · intro r hr
      exact ⟨appendedState_file d' hr, fun hlive => hx.others h hi₂ hr hlive⟩

/-- A file that does not end at a sector boundary ends in its last cluster. -/
theorem ExactChain.last (hex : ExactChain s chain i₂) (hA : chain i₂ = A ++ [l])
    (hid : 0 < (s.filelist i₂).fileSize.toNat % 512) :
    (s.filelist i₂).fileSize.toNat = 512 * A.length + (s.filelist i₂).fileSize.toNat % 512 := by
  rw [ExactChain, clustersFor, hA, List.length_append, List.length_singleton] at hex
  omega

/-- The sectors in front of the last cluster of the chain. -/
theorem byteAt_front (hK : FileChain s.sdb (firstClus s i₂) (A ++ [l]))
    (hx : Extended s.sdb d' (firstClus s i₂) (A ++ [l]) E)
    (hdata : ∀ sec, sec = 0 ∨ 19 ≤ sec → sec ∉ sectorsOf (l :: E) → d' sec = s.sdb sec) {p : Nat}
    (hp : p < 512 * A.length) :
    byteAt d' (A ++ [l] ++ E) p = byteAt s.sdb (A ++ [l]) p := by
  have hnd := hK.visits.nodup
  have hkeep : ∀ k ∈ A, d' (k + 31) = s.sdb (k + 31) := by
    intro k hk
    have hmem : k ∈ A ++ [l] := List.mem_append_left _ hk
    refine hdata _ (.inr (by omega)) ?_
    rintro ⟨x, hx', he⟩
    obtain rfl : k = x := by omega
    rcases List.mem_cons.mp hx' with rfl | hxE
    · exact (List.nodup_append'.mp hnd).2.2 hk (List.mem_singleton_self _)
    · exact hK.not_free hmem (hx.free k hxE)
  rw [List.append_assoc, byteAt_append_lt _ _ hp, byteAt_append_lt _ _ hp, byteAt_congr hkeep]

theorem byteAt_last (d : Disk) (A : List Nat) (l : Nat) {p : Nat} (hp : p < 512) :
    byteAt d (A ++ [l]) (512 * A.length + p) = (d (l + 31)).get p := by
  rw [byteAt_append, byteAt, if_pos hp]

theorem rotated_get (buff : Sector) {p : Nat} (hp : p < 511) :
    (rotated buff).get p = buff.get (p + 1) := by
  rw [rotated, Bytes.get_ofFn _ (by omega), if_pos hp, Nat.add_comm]

theorem rotated_get_last (buff : Sector) : (rotated buff).get 511 = buff.get 0 := by
  rw [rotated, Bytes.get_ofFn _ (by decide), if_neg (by decide)]

/-- A file of at most one byte has one cluster. -/
theorem ExactChain.single (hex : ExactChain s chain i₁)
    (hsize : (s.filelist i₁).fileSize.toNat ≤ 1) : ∃ r, chain i₁ = [r] := by
  refine List.length_eq_one_iff.mp ?_
  rw [hex, clustersFor]
  omega

/-- With room for one byte, the sectors of the first file overwrite each other. -/
theorem appendFile_concat_rotate (h : Mounted s f chain) (hi₁ : Live s f i₁) (hi₂ : Live s f i₂)
    (hex₁ : ExactChain s chain i₁) (hex₂ : ExactChain s chain i₂)
    (h511 : (s.filelist i₂).fileSize.toNat % 512 = 511) :
    (∃ s', appendFile s (.slot i₁) (.slot i₂) = .ok (true, s') ∧
        Concatenated s s' f chain i₁ i₂) ↔
      (s.filelist i₁).fileSize.toNat ≤ 1 ∧ ∀ p < 511,
        byteAt s.sdb (chain i₂) ((s.filelist i₂).fileSize.toNat - 511 + p) =
          byteAt s.sdb (chain i₁) (p + 1) := by
  have hK₂ := h.volume.chains i₂ hi₂
  obtain ⟨A, l, hA⟩ : ∃ A l, chain i₂ = A ++ [l] :=
    ⟨_, _, (List.dropLast_append_getLast hK₂.nonempty).symm⟩
  obtain ⟨d', hrun, hx, hdata, hone⟩ := appendFile_rotate h hi₁ hi₂ hA h511
  have hx' := hx
  rw [← hA] at hx
  have hsize₂ := hex₂.last hA (by omega)
  have hlen₂ : (A ++ [l]).length = clustersFor (s.filelist i₂).fileSize.toNat := hA ▸ hex₂
  rw [h511] at hsize₂
  rw [concatenated_iff h hi₁ hi₂ hex₁ hex₂ hx hrun, List.append_nil]
  rw [hA] at hK₂ ⊢
  have hfront : ∀ p < 512 * A.length, byteAt d' (A ++ [l]) p = byteAt s.sdb (A ++ [l]) p := by
    intro p hp
    have hcong := byteAt_front hK₂ hx' (fun sec _ hsec => hdata sec fun he => hsec
      ⟨l, List.mem_cons_self .., he⟩) hp
    rwa [List.append_nil] at hcong
  -- the last sector, when there is one to be copied
  have hlast : ∀ {r}, chain i₁ = [r] → ∀ p < 511,
      byteAt d' (A ++ [l]) (512 * A.length + p) = byteAt s.sdb (chain i₁) (p + 1) := by
    intro r hr p hp
    rw [byteAt_last _ _ _ (by omega), hone r hr, rotated_get _ hp, hr, byteAt, if_pos (by omega)]
  have hpos : ∀ p, (s.filelist i₂).fileSize.toNat - 511 + p = 512 * A.length + p := by omega
  constructor
  · rintro ⟨hlen, hold, -⟩
    have hsize₁ : (s.filelist i₁).fileSize.toNat ≤ 1 := by
      rw [hlen₂, clustersFor, clustersFor] at hlen
      omega
    obtain ⟨r, hr⟩ := hex₁.single hsize₁
    refine ⟨hsize₁, fun p hp => ?_⟩
    rw [hpos, ← hold _ (by omega), hlast hr p hp]
  · rintro ⟨hsize₁, hsame⟩
    obtain ⟨r, hr⟩ := hex₁.single hsize₁
    refine ⟨?_, fun p hp => ?_, fun p hp => ?_⟩
    · rw [hlen₂, clustersFor, clustersFor]
      omega
    · by_cases hpA : p < 512 * A.length
      · exact hfront p hpA
      · obtain ⟨q, rfl⟩ := Nat.exists_eq_add_of_le (Nat.le_of_not_lt hpA)
        rw [hlast hr q (by omega), ← hsame q (by omega), hpos]
    · have hp0 : p = 0 := by omega
      rw [hp0, Nat.add_zero, hsize₂, byteAt_last _ _ _ (by decide), hone r hr, rotated_get_last, hr,
        byteAt, if_pos (by decide)]

/-- Behind a full sector, or behind an empty file, there is a cluster too many. -/
theorem appendFile_concat_full (h : Mounted s f chain) (hi₁ : Live s f i₁) (hi₂ : Live s f i₂)
    (hne : i₁ ≠ i₂) (hex₁ : ExactChain s chain i₁) (hex₂ : ExactChain s chain i₂)
    (h0 : (s.filelist i₂).fileSize.toNat % 512 = 0)
    (hfree : (chain i₁).length + 1 ≤ (freeClusters s.sdb).card) :
    ¬ ∃ s', appendFile s (.slot i₁) (.slot i₂) = .ok (true, s') ∧
        Concatenated s s' f chain i₁ i₂ := by
  have hK₂ := h.volume.chains i₂ hi₂
  obtain ⟨A, l, hA⟩ : ∃ A l, chain i₂ = A ++ [l] :=
    ⟨_, _, (List.dropLast_append_getLast hK₂.nonempty).symm⟩
  obtain ⟨d', E, hrun, hx, hE⟩ := appendFile_full h hi₁ hi₂ hne hA h0 hfree
  rw [← hA] at hx
  have hlen₁ : (chain i₁).length = clustersFor (s.filelist i₁).fileSize.toNat := hex₁
  have hlen₂ : (chain i₂).length = clustersFor (s.filelist i₂).fileSize.toNat := hex₂
  rw [concatenated_iff h hi₁ hi₂ hex₁ hex₂ hx hrun]
  rintro ⟨hlen, -⟩
  rw [List.length_append, hE, hlen₁, hlen₂, clustersFor, clustersFor, clustersFor] at hlen
  omega

/-- With more room, the bytes are right, and the last cluster is needed if the last piece does
not fit behind the second file. -/
theorem appendFile_concat_shift (h : Mounted s f chain) (hi₁ : Live s f i₁) (hi₂ : Live s f i₂)
    (hne : i₁ ≠ i₂) (hex₁ : ExactChain s chain i₁) (hex₂ : ExactChain s chain i₂)
    (hid : 0 < (s.filelist i₂).fileSize.toNat % 512)
    (hid' : (s.filelist i₂).fileSize.toNat % 512 < 511)
    (hfree : (chain i₁).length ≤ (freeClusters s.sdb).card) :
    (∃ s', appendFile s (.slot i₁) (.slot i₂) = .ok (true, s') ∧
        Concatenated s s' f chain i₁ i₂) ↔
      0 < (s.filelist i₁).fileSize.toNat ∧
        512 < (s.filelist i₂).fileSize.toNat % 512 +
          (((s.filelist i₁).fileSize.toNat - 1) % 512 + 1) := by
  have hK₂ := h.volume.chains i₂ hi₂
  obtain ⟨A, l, hA⟩ : ∃ A l, chain i₂ = A ++ [l] :=
    ⟨_, _, (List.dropLast_append_getLast hK₂.nonempty).symm⟩
  obtain ⟨d', E, hrun, hx, hc⟩ := appendFile_shift h hi₁ hi₂ hne hA hid hid' hfree
  have hx' := hx
  rw [← hA] at hx
  have hlen₁ : (chain i₁).length = clustersFor (s.filelist i₁).fileSize.toNat := hex₁
  have hlen₂ : (chain i₂).length = clustersFor (s.filelist i₂).fileSize.toNat := hex₂
  have hsize₂ := hex₂.last hA hid
  rw [concatenated_iff h hi₁ hi₂ hex₁ hex₂ hx hrun]
  constructor
  · rintro ⟨hlen, -⟩
    rw [List.length_append, hc.length, hlen₁, hlen₂, clustersFor, clustersFor, clustersFor] at hlen
    constructor
    · omega
    · omega
  · rintro ⟨hsize₁, hspill⟩
    refine ⟨?_, fun p hp => ?_, fun p hp => ?_⟩
    · rw [List.length_append, hc.length, hlen₁, hlen₂, clustersFor, clustersFor, clustersFor]
      omega
    · rw [hA] at hK₂ ⊢
      by_cases hpA : p < 512 * A.length
      · exact byteAt_front hK₂ hx' hc.data hpA
      · -- the old bytes of the last sector are the first ones in the buffer
        obtain ⟨q, rfl⟩ := Nat.exists_eq_add_of_le (Nat.le_of_not_lt hpA)
        rw [byteAt_last _ _ _ (by omega), List.append_assoc, byteAt_append, List.singleton_append,
          hc.bytes q (by omega), if_pos (by omega)]
    · have hpos : (s.filelist i₂).fileSize.toNat + p =
          512 * A.length + ((s.filelist i₂).fileSize.toNat % 512 + p) := by omega
      have hlong : p < 512 * (chain i₁).length := by
        rw [hlen₁, clustersFor]
        omega
      rw [hA, hpos, List.append_assoc, byteAt_append, List.singleton_append,
        hc.bytes _ (by omega), if_neg (by omega), Nat.add_sub_cancel_left]

/-- **When `append_file` concatenates.** -/
theorem appendFile_concat_iff (h : Mounted s f chain) (hi₁ : Live s f i₁) (hi₂ : Live s f i₂)
    (hne : i₁ ≠ i₂) (hex₁ : ExactChain s chain i₁) (hex₂ : ExactChain s chain i₂)
    (hfree : appendNeed (chain i₁).length (s.filelist i₂).fileSize ≤ (freeClusters s.sdb).card) :
    (∃ s', appendFile s (.slot i₁) (.slot i₂) = .ok (true, s') ∧
        Concatenated s s' f chain i₁ i₂) ↔ AppendFits s chain i₁ i₂ := by
  have hlt : (s.filelist i₂).fileSize.toNat % 512 < 512 := Nat.mod_lt _ (by decide)
  rw [AppendFits]
  by_cases h511 : (s.filelist i₂).fileSize.toNat % 512 = 511
  · rw [appendFile_concat_rotate h hi₁ hi₂ hex₁ hex₂ h511]
    constructor
    · exact fun hone => .inr ⟨h511, hone⟩
    · rintro (⟨-, hbad, -⟩ | ⟨-, hone⟩)
      · omega
      · exact hone
  · rw [appendNeed, if_neg (show ¬ (s.filelist i₂).fileSize.toNat % bytePerSec = 511 from h511)]
      at hfree
    by_cases h0 : (s.filelist i₂).fileSize.toNat % 512 = 0
    · rw [if_pos (show (s.filelist i₂).fileSize.toNat % bytePerSec = 0 from h0)] at hfree
      constructor
      · exact fun hcat => absurd hcat (appendFile_concat_full h hi₁ hi₂ hne hex₁ hex₂ h0 hfree)
      · rintro (⟨hbad, -⟩ | ⟨hbad, -⟩)
        · omega
        · omega
    · rw [if_neg (show ¬ (s.filelist i₂).fileSize.toNat % bytePerSec = 0 from h0)] at hfree
      rw [appendFile_concat_shift h hi₁ hi₂ hne hex₁ hex₂ (by omega) (by omega) hfree]
      constructor
      · exact fun hspill => .inl ⟨by omega, by omega, hspill⟩
      · rintro (⟨-, -, hspill⟩ | ⟨hbad, -⟩)
        · exact hspill
        · omega

end Concat

/-! ## The length of the loop -/

/-- `append_file` before its copy loop: the last cluster of the second file, or a new one behind
it, with the buffer. `false` when there is no new cluster. -/
def appendEntry (s : Fs) (file2 : FileRef) : Except Fault (Bool × Nat × Sector × Disk) := do
  let clusID2 ← lastCluster s.sdb walkFuel (s.file file2).fstClus.toNat
  let buff2 ← readSector s.sdb (u16 (clusID2 + clusToSec))
  if (s.file file2).fileSize.toNat % bytePerSec = 0 then do
    let (clusID2, d) ← appendACluster s.sdb clusID2
    if (clusID2 : Int) = -1 then pure (false, clusID2, buff2, d)
    else
      let buff2 ← readSector d (u16 (clusID2 + clusToSec))
      pure (true, clusID2, buff2, d)
  else pure (true, clusID2, buff2, s.sdb)

/-- The call is this entry, then the copy loop. -/
theorem appendFile_entry (s : Fs) (file1 file2 : FileRef) : appendFile s file1 file2 =
    (appendEntry s file2 >>= fun (ok, clusID2, buff2, d) =>
      if !ok then pure (false, { s with sdb := d })
      else
        appendLoop walkFuel d (s.file file1).fstClus.toNat clusID2
            ((s.file file2).fileSize.toNat % bytePerSec) buff2 >>= fun (ok, d) =>
          if !ok then pure (false, { s with sdb := d })
          else pure (true, Fs.setFile { s with sdb := d } file2
            { s.file file2 with fileSize := (s.file file2).fileSize + (s.file file1).fileSize })) := by
  unfold appendFile appendEntry
  cases lastCluster s.sdb walkFuel (s.file file2).fstClus.toNat with
  | error e => rfl
  | ok l =>
    simp only [bind, Except.bind]
    cases readSector s.sdb (u16 (l + clusToSec)) with
    | error e => rfl
    | ok buff =>
      simp only
      by_cases h0 : (s.file file2).fileSize.toNat % bytePerSec = 0
      · simp only [h0, if_true]
        cases appendACluster s.sdb l with
        | error e => rfl
        | ok r =>
          simp only
          by_cases hneg : (r.1 : Int) = -1
          · simp only [hneg, if_true, pure, Except.pure, Bool.not_false]
          · simp only [hneg, if_false]
            cases readSector r.2 (u16 (r.1 + clusToSec)) with
            | error e => rfl
            | ok b => simp only [pure, Except.pure, Bool.not_true, Bool.false_eq_true, if_false,
                Fs.file_setSdb]
      · simp only [h0, if_false, pure, Except.pure, Bool.not_true, Bool.false_eq_true,
          Fs.file_setSdb]

/-- The copy loop makes `m` iterations and meets an end mark: it is still going with fuel for `m`
tests of its condition, and has returned with one more. -/
def CopyEnds (s : Fs) (file1 file2 : FileRef) (m : Nat) : Prop :=
  ∃ l buff d d', appendEntry s file2 = .ok (true, l, buff, d) ∧
    appendLoop m d (s.file file1).fstClus.toNat l ((s.file file2).fileSize.toNat % bytePerSec) buff =
      .error .outOfFuel ∧
    appendLoop (m + 1) d (s.file file1).fstClus.toNat l
      ((s.file file2).fileSize.toNat % bytePerSec) buff = .ok (true, d')

/-- More fuel changes nothing. -/
theorem appendLoop_more {n m : Nat} {d : Disk} {c₁ c₂ id : Nat} {buff : Sector} {r : Bool × Disk}
    (h : appendLoop n d c₁ c₂ id buff = .ok r) (hle : n ≤ m) : appendLoop m d c₁ c₂ id buff = .ok r := by
  induction n generalizing m d c₁ c₂ id buff with
  | zero => cases h
  | succ n ih =>
    obtain ⟨m, rfl⟩ : ∃ k, m = k + 1 := ⟨m - 1, by omega⟩
    rw [appendLoop] at h ⊢
    by_cases hend : isEndMark c₁ = true
    · rw [if_pos hend] at h ⊢
      exact h
    · rw [if_neg hend] at h ⊢
      obtain ⟨buff1, h1, h⟩ := bind_eq_ok.mp h
      obtain ⟨d1, h2, h⟩ := bind_eq_ok.mp h
      refine bind_eq_ok.mpr ⟨buff1, h1, bind_eq_ok.mpr ⟨d1, h2, ?_⟩⟩
      by_cases hid : id < bytePerSec - 1
      · simp only [hid, if_true] at h ⊢
        obtain ⟨x, h3, h⟩ := bind_eq_ok.mp h
        refine bind_eq_ok.mpr ⟨x, h3, ?_⟩
        by_cases hneg : (x.1 : Int) = -1
        · simp only [hneg, if_true] at h ⊢
          exact h
        · simp only [hneg, if_false] at h ⊢
          obtain ⟨b, h4, h⟩ := bind_eq_ok.mp h
          exact bind_eq_ok.mpr ⟨b, h4, ih h (by omega)⟩
      · simp only [hid, if_false] at h ⊢
        exact ih h (by omega)

/-- When the copy loop ends in time, the call returns. -/
theorem CopyEnds.appendFile {s : Fs} {file1 file2 : FileRef} {m : Nat} (h : CopyEnds s file1 file2 m)
    (hm : m < walkFuel) : ∃ s', GwOS.appendFile s file1 file2 = .ok (true, s') := by
  obtain ⟨l, buff, d, d', hentry, -, hends⟩ := h
  rw [appendFile_entry, hentry]
  simp only [bind, Except.bind, Bool.not_true, Bool.false_eq_true, if_false,
    appendLoop_more hends hm]
  exact ⟨_, rfl⟩

section Length

variable {s : Fs} {f : Forest (Fin 100)} {chain : Fin 100 → List Nat} {i₁ i₂ : Fin 100}
  {A : List Nat} {l : Nat}

/-- One step along a chain to which a cluster has been appended stays in it. -/
theorem FileChain.next_mem {d : Disk} {c k e : Nat} {K : List Nat} (h : FileChain d c (K ++ [e]))
    (hk : k ∈ K) : getFatNextCluster d k ∈ K ++ [e] := by
  obtain ⟨P, Q, rfl⟩ := List.append_of_mem hk
  have hv := h.visits
  cases Q with
  | nil =>
    rw [List.append_assoc, List.singleton_append] at hv
    rw [hv.next_mem]
    simp
  | cons q Q =>
    rw [List.append_assoc, List.cons_append, List.cons_append] at hv
    rw [hv.next_mem]
    simp

/-- **A chain that is read while it grows.** As long as there are free clusters the walk stays
inside the chain. -/
theorem appendLoop_self {id c₂ : Nat} (hid : id < 511) {n : Nat} {d : Disk} {c₁ : Nat} (buff : Sector)
    (hK : FileChain d c₂ (A ++ [l])) (h0 : getFatNextCluster d 0 ≠ 0)
    (h1 : getFatNextCluster d 1 ≠ 0) (hc : c₁ ∈ A ++ [l]) (hn : n ≤ (freeClusters d).card) :
    appendLoop n d c₁ l id buff = .error .outOfFuel := by
  induction n generalizing d c₁ A l buff with
  | zero => rfl
  | succ n ih =>
    obtain ⟨d2, e, buff', hx, -, -, -, hstep⟩ := appendLoop_step_alloc hid buff hK h0 h1
      (hK.visits.not_stop_of_mem hc) (hK.range c₁ hc).2 (by omega)
    have hcount := hx.count
    rw [List.length_singleton] at hcount
    rw [hstep]
    exact ih buff' hx.chain (by rw [hx.reserved (by decide)]; exact h0)
      (by rw [hx.reserved (by decide)]; exact h1) (hx.chain.next_mem hc) (by omega)

/-- What the loop starts with: a chain of the second file that ends in the cluster to be
written. -/
theorem appendEntry_ok (h : Mounted s f chain) (hi₂ : Live s f i₂)
    (hfree : 0 < (freeClusters s.sdb).card) :
    ∃ A l buff d E, appendEntry s (.slot i₂) = .ok (true, l, buff, d) ∧
      chain i₂ ++ E = A ++ [l] ∧ Extended s.sdb d (firstClus s i₂) (chain i₂) E ∧
      E.length ≤ 1 ∧ ((s.filelist i₂).fileSize.toNat % 512 ≠ 0 → d = s.sdb) := by
  have hK₂ := h.volume.chains i₂ hi₂
  obtain ⟨A, l, hA⟩ : ∃ A l, chain i₂ = A ++ [l] :=
    ⟨_, _, (List.dropLast_append_getLast hK₂.nonempty).symm⟩
  rw [hA] at hK₂ ⊢
  have hle := (hK₂.range l (by simp)).2
  have hlast : lastCluster s.sdb walkFuel (s.file (.slot i₂)).fstClus.toNat = .ok l :=
    lastCluster_chain hK₂
  by_cases h0 : (s.file (.slot i₂)).fileSize.toNat % bytePerSec = 0
  · obtain ⟨e, d1, happ, hg⟩ := Grown.append hK₂ h.volume.entry0 h.volume.entry1 hfree
    have hele := (hg.chain.range e (by simp)).2
    have hneg : ¬ ((e : Int) = -1) := by omega
    refine ⟨A ++ [l], e, d1 (e + 31), d1, [e], ?_, rfl, .of_grown hg, le_refl 1,
      fun hne => absurd h0 hne⟩
    rw [appendEntry, hlast]
    simp only [bind, Except.bind]
    rw [u16_sec hle, readSector_ok _ (sec_le hle)]
    simp only [h0, if_true, happ, hneg, if_false]
    rw [u16_sec hele, readSector_ok _ (sec_le hele)]
    rfl
  · refine ⟨A, l, s.sdb (l + 31), s.sdb, [], ?_, List.append_nil _, ?_, Nat.zero_le 1, fun _ => rfl⟩
    · rw [appendEntry, hlast]
      simp only [bind, Except.bind]
      rw [u16_sec hle, readSector_ok _ (sec_le hle)]
      simp only [h0, if_false]
      rfl
    · exact ⟨by rwa [List.append_nil], fun e he => absurd he List.not_mem_nil, Touches.refl ..,
        Nat.le_add_right _ _⟩

/-- A file appended to itself, unless no cluster is ever added. -/
theorem copyEnds_self_not (h : Mounted s f chain) (hi : Live s f i₁)
    (hid : (s.filelist i₁).fileSize.toNat % 512 ≠ 511)
    (hfree : (chain i₁).length + 2 ≤ (freeClusters s.sdb).card) :
    ¬ CopyEnds s (.slot i₁) (.slot i₁) (chain i₁).length := by
  have hK₁ := h.volume.chains i₁ hi
  have hlt : (s.filelist i₁).fileSize.toNat % 512 < 512 := Nat.mod_lt _ (by decide)
  obtain ⟨A, l, buff, d, E, hentry, hlast, hx, hE, -⟩ := appendEntry_ok h hi (by omega)
  have hcount := hx.count
  have hmem : firstClus s i₁ ∈ A ++ [l] := by
    rw [← hlast]
    refine List.mem_append_left _ ?_
    obtain ⟨k, K, hk⟩ := List.exists_cons_of_ne_nil hK₁.nonempty
    have hv := hK₁.visits
    rw [hk] at hv ⊢
    rw [hv.1]
    exact List.mem_cons_self ..
  have hgoing := appendLoop_self (by omega : (s.filelist i₁).fileSize.toNat % 512 < 511) buff
    (hlast ▸ hx.chain) (by rw [hx.reserved (by decide)]; exact h.volume.entry0)
    (by rw [hx.reserved (by decide)]; exact h.volume.entry1) hmem
    (by omega : (chain i₁).length + 1 ≤ (freeClusters d).card)
  rintro ⟨l', buff', d1, d', hentry', -, hends⟩
  cases hentry.symm.trans hentry'
  cases hgoing.symm.trans hends

/-- **When the copy loop ends in time.** -/
theorem copyEnds_iff (h : Mounted s f chain) (hi₁ : Live s f i₁) (hi₂ : Live s f i₂)
    (hfree : (chain i₁).length + 2 ≤ (freeClusters s.sdb).card) :
    CopyEnds s (.slot i₁) (.slot i₂) (chain i₁).length ↔
      i₁ ≠ i₂ ∨ (s.filelist i₂).fileSize.toNat % 512 = 511 := by
  have hK₁ := h.volume.chains i₁ hi₁
  have hlt : (s.filelist i₂).fileSize.toNat % 512 < 512 := Nat.mod_lt _ (by decide)
  constructor
  · intro hends
    by_contra hself
    obtain ⟨rfl, hid⟩ : i₁ = i₂ ∧ (s.filelist i₂).fileSize.toNat % 512 ≠ 511 := by
      simpa only [not_or, ne_eq, not_not] using hself
    exact copyEnds_self_not h hi₁ hid hfree hends
  · intro hcond
    obtain ⟨A, l, buff, d, E, hentry, hlast, hx, hE, hsame⟩ := appendEntry_ok h hi₂ (by omega)
    have hcount := hx.count
    have hK : FileChain d (firstClus s i₂) (A ++ [l]) := hlast ▸ hx.chain
    by_cases h511 : (s.filelist i₂).fileSize.toNat % 512 = 511
    · -- the chain that is read stays as it is, whichever it is
      obtain rfl := hsame (by omega)
      have hl : l ∈ A ++ [l] := by simp
      obtain ⟨d', hrun, hout, -⟩ := appendLoop_noAlloc hl buff hK hK₁.visits hK₁.range
      have hid : (s.file (.slot i₂)).fileSize.toNat % bytePerSec = 511 := h511
      refine ⟨l, buff, s.sdb, d', hentry, ?_, ?_⟩
      · rw [hid]
        exact hout
      · rw [hid]
        exact hrun _ (Nat.lt_succ_self _)
    · have hne : i₁ ≠ i₂ := hcond.resolve_right h511
      have hdis : ∀ k ∈ chain i₁, k ∉ A ++ [l] ∧ ¬ IsFree d k := by
        intro k hk
        obtain ⟨hnot, hused⟩ := h.apart hi₁ hi₂ hne hk
        refine ⟨fun hm => ?_, fun hf => hused (hx.touches.free_back hx.chain hf)⟩
        rw [← hlast] at hm
        rcases List.mem_append.mp hm with hm | hm
        · exact hnot hm
        · exact hused (hx.free k hm)
      obtain ⟨d', -, hrun, hout, -⟩ := appendLoop_alloc
        (by omega : (s.filelist i₂).fileSize.toNat % 512 < 511) buff hK
        (by rw [hx.reserved (by decide)]; exact h.volume.entry0)
        (by rw [hx.reserved (by decide)]; exact h.volume.entry1)
        (hK₁.visits.congr fun k hk => hx.other hK₁ (fun y hy => (h.apart hi₁ hi₂ hne hy).1) hk)
        hK₁.range hdis (by omega)
      exact ⟨l, buff, d, d', hentry, hout, hrun _ (Nat.lt_succ_self _)⟩

end Length

/-! ## Two files -/

/-- The nodes of two files with one cluster each. -/
def twoFileNodes (size₁ size₂ : UInt32) (i : Fin 100) : File :=
  if i = 0 then { oneFile with fileSize := size₁, nextSib := some (.slot 1) }
  else if i = 1 then
    { oneFile with filename := Bytes.ofFn fun _ => 0x46, fstClus := 3, fileSize := size₂ }
  else blankFile

/-- The volume with these files in the root directory. -/
def twoFilesFs (size₁ size₂ : UInt32) : Fs :=
  bootedFs (smallVolume twoEnds (putDirEntry (putDirEntry (Bytes.zero 512) 0
    (twoFileNodes size₁ size₂ 0)) 32 (twoFileNodes size₁ size₂ 1)) (Bytes.zero 512))
    (some (.slot 0)) (twoFileNodes size₁ size₂)

def twoFilesChain (i : Fin 100) : List Nat := if i = 0 then [2] else [3]

section TwoFiles

variable (size₁ size₂ : UInt32)

theorem twoFilesFs_fat {c : Nat} (hc : c < 7) :
    getFatNextCluster (twoFilesFs size₁ size₂).sdb c =
      getFatNextCluster (smallVolume twoEnds (Bytes.zero 512) (Bytes.zero 512)) c := by
  refine getFat_of_copy1 (fun sec h1 h9 => ?_) (by unfold fatEntries; omega)
  show smallVolume _ _ _ sec = _
  rw [smallVolume, smallVolume]
  by_cases hsec : sec = 1 ∨ sec = 10
  · rw [if_pos hsec, if_pos hsec]
  · rw [if_neg hsec, if_neg hsec, if_neg (by omega), if_neg (by omega), if_neg (by omega)]

theorem twoFilesFs_free : 3 ≤ (freeClusters (twoFilesFs size₁ size₂).sdb).card := by
  have hsub : ({4, 5, 6} : Finset Nat) ⊆ freeClusters (twoFilesFs size₁ size₂).sdb := by
    intro c hc
    simp only [Finset.mem_insert, Finset.mem_singleton] at hc
    refine mem_freeClusters.mpr ⟨by omega, by omega, ?_⟩
    rw [twoFilesFs_fat _ _ (by omega)]
    rcases hc with rfl | rfl | rfl
    · decide
    · decide
    · decide
  exact Finset.card_le_card hsub

theorem twoFilesFs_live : Live (twoFilesFs size₁ size₂) (.cons 0 .nil (.cons 1 .nil .nil)) 0 ∧
    Live (twoFilesFs size₁ size₂) (.cons 0 .nil (.cons 1 .nil .nil)) 1 := by
  have h0 : ((twoFilesFs size₁ size₂).filelist 0).filename = sampleName := rfl
  have h1 : ((twoFilesFs size₁ size₂).filelist 1).filename = Bytes.ofFn fun _ => 0x46 := rfl
  refine ⟨⟨by decide, ?_⟩, by decide, ?_⟩
  · rw [IsDot, h0]
    decide
  · rw [IsDot, h1]
    decide

theorem twoFilesFs_mounted :
    Mounted (twoFilesFs size₁ size₂) (.cons 0 .nil (.cons 1 .nil .nil)) twoFilesChain := by
  have hlive : ∀ i, Live (twoFilesFs size₁ size₂) (.cons 0 .nil (.cons 1 .nil .nil)) i →
      i = 0 ∨ i = 1 := by
    rintro i ⟨hi, -⟩
    have hi' : i ∈ [(0 : Fin 100), 1] := hi
    simpa using hi'
  have hend : ∀ c, c = 2 ∨ c = 3 → IsEnd (getFatNextCluster (twoFilesFs size₁ size₂).sdb c) := by
    intro c hc
    rw [twoFilesFs_fat _ _ (by omega)]
    rcases hc with rfl | rfl
    · decide
    · decide
  refine ⟨⟨⟨rfl, rfl, rfl, rfl, rfl, rfl, rfl, rfl, rfl⟩, by decide⟩, ?_, ?_, ?_, ?_⟩
  · rw [twoFilesFs_fat _ _ (by decide)]
    decide
  · rw [twoFilesFs_fat _ _ (by decide)]
    decide
  · intro i hi
    rcases hlive i hi with rfl | rfl
    · exact ⟨⟨rfl, by decide, hend 2 (.inl rfl)⟩, by decide, by decide⟩
    · exact ⟨⟨rfl, by decide, hend 3 (.inr rfl)⟩, by decide, by decide⟩
  · intro i j hi hj hij
    rcases hlive i hi with rfl | rfl <;> rcases hlive j hj with rfl | rfl
    · exact absurd rfl hij
    · exact List.disjoint_singleton.mpr (by decide)
    · exact List.disjoint_singleton.mpr (by decide)
    · exact absurd rfl hij

theorem twoFilesFs_exact (h₁ : clustersFor size₁.toNat = 1) (h₂ : clustersFor size₂.toNat = 1) :
    ExactChain (twoFilesFs size₁ size₂) twoFilesChain 0 ∧
      ExactChain (twoFilesFs size₁ size₂) twoFilesChain 1 :=
  ⟨h₁.symm, h₂.symm⟩

end TwoFiles

/-- 511 bytes behind two bytes. -/
theorem appendFile_concat_sample :
    ∃ s', appendFile (twoFilesFs 511 2) (.slot 0) (.slot 1) = .ok (true, s') ∧
      Concatenated (twoFilesFs 511 2) s' (.cons 0 .nil (.cons 1 .nil .nil)) twoFilesChain 0 1 :=
  (appendFile_concat_iff (twoFilesFs_mounted 511 2) (twoFilesFs_live 511 2).1
    (twoFilesFs_live 511 2).2 (by decide)
    (twoFilesFs_exact 511 2 (by decide) (by decide)).1
    (twoFilesFs_exact 511 2 (by decide) (by decide)).2
    ((by decide : appendNeed 1 2 ≤ 3).trans (twoFilesFs_free 511 2))).mpr
    (.inl ⟨by decide, by decide, by decide, by decide⟩)

/-- One byte behind an empty file: the byte is put into a second cluster, and there is a third. -/
theorem appendFile_concat_fails : ¬ ∃ s',
    appendFile (twoFilesFs 1 0) (.slot 0) (.slot 1) = .ok (true, s') ∧
      Concatenated (twoFilesFs 1 0) s' (.cons 0 .nil (.cons 1 .nil .nil)) twoFilesChain 0 1 :=
  appendFile_concat_full (twoFilesFs_mounted 1 0) (twoFilesFs_live 1 0).1 (twoFilesFs_live 1 0).2
    (by decide) (twoFilesFs_exact 1 0 (by decide) (by decide)).1
    (twoFilesFs_exact 1 0 (by decide) (by decide)).2 rfl
    ((by decide : 1 + 1 ≤ 3).trans (twoFilesFs_free 1 0))

/-- One cluster, one iteration. -/
theorem copyEnds_sample : CopyEnds (twoFilesFs 511 2) (.slot 0) (.slot 1) 1 :=
  (copyEnds_iff (twoFilesFs_mounted 511 2) (twoFilesFs_live 511 2).1 (twoFilesFs_live 511 2).2
    (twoFilesFs_free 511 2)).mpr (.inl (by decide))

/-- `append f f`. -/
theorem copyEnds_fails : ¬ CopyEnds (twoFilesFs 0 0) (.slot 0) (.slot 0) 1 :=
  copyEnds_self_not (twoFilesFs_mounted 0 0) (twoFilesFs_live 0 0).1 (by decide)
    (twoFilesFs_free 0 0)

end GwOS
