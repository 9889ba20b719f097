import GwOS.Filesystem.Fsfunc
import GwOS.Filesystem.Fat
import Mathlib.Data.Finset.Card
import Mathlib.Order.Interval.Finset.Nat

/-!
# The volume: a family of disjoint cluster chains

What the FAT means for the files on the disk. `Volume d live clus chain` says
that every live file has its cluster chain, that the chains are pairwise
disjoint and that the reserved entries 0 and 1 are not zero.

- `Touches d d' F S` is the frame condition of a disk operation: only the FAT
  entries in `F` and the data sectors in `S` may differ, and equal FAT copies
  stay equal.
- `Volume.change` is the one step lemma: a new chain for one file, made of its
  old clusters and of free ones, keeps the family disjoint. Allocation, growth,
  truncation and release are instances.
- `freeClusters` counts what is left.
-/

namespace GwOS

/-! ## Frame conditions -/

/-- Only the FAT entries in `F` and the sectors in `S` outside the FAT copies
may have changed, and equal FAT copies are still equal. -/
structure Touches (d d' : Disk) (F S : Set Nat) : Prop where
  fat : ∀ c, c < fatEntries → c ∉ F → getFatNextCluster d' c = getFatNextCluster d c
  data : ∀ sec, sec = 0 ∨ 19 ≤ sec → sec ∉ S → d' sec = d sec
  mirrored : FatMirrored d → FatMirrored d'

namespace Touches

variable {d d' d'' : Disk} {F F' S S' : Set Nat}

theorem refl (d : Disk) (F S : Set Nat) : Touches d d F S :=
  ⟨fun _ _ _ => rfl, fun _ _ _ => rfl, id⟩

theorem trans (h : Touches d d' F S) (h' : Touches d' d'' F S) : Touches d d'' F S :=
  ⟨fun c hc hF => (h'.fat c hc hF).trans (h.fat c hc hF),
    fun sec hs hS => (h'.data sec hs hS).trans (h.data sec hs hS),
    fun hm => h'.mirrored (h.mirrored hm)⟩

theorem mono (h : Touches d d' F S) (hF : F ⊆ F') (hS : S ⊆ S') : Touches d d' F' S' :=
  ⟨fun c hc hn => h.fat c hc fun hm => hn (hF hm),
    fun sec hs hn => h.data sec hs fun hm => hn (hS hm), h.mirrored⟩

/-- A FAT write touches one entry. -/
theorem put (d : Disk) {c : Nat} (data : Nat) (hc : c < fatEntries) (hF : c ∈ F) :
    Touches d (putFat d c data) F S :=
  ⟨fun _ hc' hn => getFat_putFat_ne d data hc hc' fun he => hn (he ▸ hF),
    fun _ hs _ => putFat_outside d data hc hs, fun hm => hm.put data hc⟩

/-- A sector write behind the FAT touches one sector. -/
theorem update (d : Disk) {sec : Nat} (buff : Sector) (hsec : 19 ≤ sec) (hS : sec ∈ S) :
    Touches d (Function.update d sec buff) F S := by
  refine ⟨fun c hc _ => getFat_update d buff hsec hc, fun x _ hn => ?_, fun hm k h1 h9 => ?_⟩
  · have hne : x ≠ sec := fun he => hn (he ▸ hS)
    rw [Function.update_of_ne hne]
  · rw [Function.update_of_ne (by omega), Function.update_of_ne (by omega), hm k h1 h9]

/-- The reserved entries, when no data cluster below 2 is touched. -/
theorem reserved (h : Touches d d' F S) (hF : ∀ c ∈ F, 2 ≤ c) {c : Nat} (hc : c < 2) :
    getFatNextCluster d' c = getFatNextCluster d c := by
  refine h.fat c (by unfold fatEntries; omega) fun hm => ?_
  have := hF c hm
  omega

end Touches

/-! ## Free clusters -/

/-- The data clusters marked free. -/
def freeClusters (d : Disk) : Finset Nat := (Finset.range 2849).filter (IsFree d)

theorem mem_freeClusters {d : Disk} {c : Nat} : c ∈ freeClusters d ↔ IsFree d c := by
  rw [freeClusters, Finset.mem_filter, Finset.mem_range]
  constructor
  · exact And.right
  · intro h
    have := h.2.1
    exact ⟨by omega, h⟩

theorem isFree_of_card_pos {d : Disk} (h : 0 < (freeClusters d).card) : ∃ c, IsFree d c := by
  obtain ⟨c, hc⟩ := Finset.card_pos.mp h
  exact ⟨c, mem_freeClusters.mp hc⟩

theorem IsFree.lt {d : Disk} {c : Nat} (h : IsFree d c) : c < fatEntries := by
  have := h.2.1
  unfold fatEntries
  omega

/-- An operation that uses at most the free cluster `c` leaves the others free. -/
theorem card_freeClusters_le {d d' : Disk} {c : Nat}
    (h : ∀ k, IsFree d k → k ≠ c → IsFree d' k) :
    (freeClusters d).card ≤ (freeClusters d').card + 1 := by
  have hsub : freeClusters d ⊆ insert c (freeClusters d') := by
    intro k hk
    by_cases hkc : k = c
    · exact hkc ▸ Finset.mem_insert_self ..
    · exact Finset.mem_insert_of_mem (mem_freeClusters.mpr (h k (mem_freeClusters.mp hk) hkc))
  exact (Finset.card_le_card hsub).trans (Finset.card_insert_le ..)

theorem card_freeClusters_mono {d d' : Disk} (h : ∀ k, IsFree d k → IsFree d' k) :
    (freeClusters d).card ≤ (freeClusters d').card :=
  Finset.card_le_card fun k hk => mem_freeClusters.mpr (h k (mem_freeClusters.mp hk))

theorem Touches.isFree {d d' : Disk} {F S : Set Nat} (h : Touches d d' F S) {k : Nat}
    (hk : IsFree d k) (hF : k ∉ F) : IsFree d' k :=
  ⟨hk.1, hk.2.1, (h.fat k hk.lt hF).trans hk.2.2⟩

/-! ## The family of chains -/

/-- Every live file has its chain, and the chains are disjoint. -/
structure Volume (d : Disk) (live : Fin 100 → Prop) (clus : Fin 100 → Nat)
    (chain : Fin 100 → List Nat) : Prop where
  entry0 : getFatNextCluster d 0 ≠ 0
  entry1 : getFatNextCluster d 1 ≠ 0
  chains : ∀ i, live i → FileChain d (clus i) (chain i)
  disjoint : ∀ i j, live i → live j → i ≠ j → List.Disjoint (chain i) (chain j)

/-- A chain has fewer clusters than the walks over it have fuel. -/
theorem FileChain.length_lt {d : Disk} {c : Nat} {K : List Nat} (h : FileChain d c K) :
    K.length < 2849 := by
  have hsub : K.toFinset ⊆ (Finset.range 2849).erase 0 := by
    intro k hk
    have := h.range k (List.mem_toFinset.mp hk)
    exact Finset.mem_erase.mpr ⟨by omega, Finset.mem_range.mpr (by omega)⟩
  have hcard := Finset.card_le_card hsub
  rw [List.toFinset_card_of_nodup h.visits.nodup, Finset.card_erase_of_mem (by simp),
    Finset.card_range] at hcard
  omega

/-- The clusters of the live files in `T`. -/
def clustersOf (live : Fin 100 → Prop) (chain : Fin 100 → List Nat) (T : List (Fin 100)) :
    Set Nat := {c | ∃ x ∈ T, live x ∧ c ∈ chain x}

namespace Volume

variable {d d' : Disk} {live live' : Fin 100 → Prop} {clus clus' : Fin 100 → Nat}
  {chain : Fin 100 → List Nat} {F S : Set Nat}

/-- **One chain changes.** The other live files keep their start and the FAT
entries of their clusters; the new chain of `i` consists of its old clusters
and of clusters that were free. -/
theorem change (h : Volume d live clus chain) (i : Fin 100) (K : List Nat)
    (h0 : getFatNextCluster d' 0 = getFatNextCluster d 0)
    (h1 : getFatNextCluster d' 1 = getFatNextCluster d 1)
    (hother : ∀ j, live' j → j ≠ i → live j ∧ clus' j = clus j ∧
      ∀ k ∈ chain j, getFatNextCluster d' k = getFatNextCluster d k)
    (hK : live' i → FileChain d' (clus' i) K)
    (hsub : live' i → ∀ k ∈ K, (live i ∧ k ∈ chain i) ∨ IsFree d k) :
    Volume d' live' clus' (Function.update chain i K) := by
  -- the new chain avoids every other one: its clusters were its own or free
  have hdis : ∀ j, live' i → live' j → j ≠ i → List.Disjoint K (chain j) := by
    intro j hi hj hji k hkK hkj
    obtain ⟨hlj, -, -⟩ := hother j hj hji
    rcases hsub hi k hkK with ⟨hli, hki⟩ | hfree
    · exact h.disjoint i j hli hlj (Ne.symm hji) hki hkj
    · exact (h.chains j hlj).not_free hkj hfree
  refine ⟨h0 ▸ h.entry0, h1 ▸ h.entry1, fun j hj => ?_, fun j k hj hk hjk => ?_⟩
  · by_cases hji : j = i
    · subst hji
      rw [Function.update_self]
      exact hK hj
    · obtain ⟨hlj, hc, hfat⟩ := hother j hj hji
      rw [Function.update_of_ne hji, hc]
      exact (h.chains j hlj).congr hfat
  · refine Chain.disjoint_update hjk (fun hji => ?_) (fun hki => ?_) fun hji hki => ?_
    · subst hji
      exact hdis k hj hk (Ne.symm hjk)
    · subst hki
      exact hdis j hk hj hjk
    · exact h.disjoint j k (hother j hj hji).1 (hother k hk hki).1 hjk

/-- Fewer files, the same FAT entries and first clusters: data writes and
changes of the tree. -/
theorem congr (h : Volume d live clus chain) (ht : Touches d d' ∅ S)
    (hlive : ∀ j, live' j → live j ∧ clus' j = clus j) : Volume d' live' clus' chain := by
  have hfat : ∀ c, c < fatEntries → getFatNextCluster d' c = getFatNextCluster d c :=
    fun c hc => ht.fat c hc (Set.notMem_empty c)
  refine ⟨?_, ?_, fun j hj => ?_, fun j k hj hk => h.disjoint j k (hlive j hj).1 (hlive k hk).1⟩
  · rw [hfat 0 (by decide)]
    exact h.entry0
  · rw [hfat 1 (by decide)]
    exact h.entry1
  · obtain ⟨hl, hc⟩ := hlive j hj
    rw [hc]
    exact (h.chains j hl).congr fun k hk => hfat k ((h.chains j hl).lt_fatEntries hk)

/-- A frame that touches entries of `chain i` and free entries only leaves the
other chains alone. -/
theorem other_chain (h : Volume d live clus chain) (ht : Touches d d' F S) {i : Fin 100}
    (hF : ∀ c ∈ F, (live i ∧ c ∈ chain i) ∨ IsFree d c) {j : Fin 100} (hj : live j) (hji : j ≠ i)
    {k : Nat} (hk : k ∈ chain j) : getFatNextCluster d' k = getFatNextCluster d k := by
  refine ht.fat k ((h.chains j hj).lt_fatEntries hk) fun hm => ?_
  rcases hF k hm with ⟨hli, hki⟩ | hfree
  · exact h.disjoint i j hli hj (Ne.symm hji) hki hk
  · exact (h.chains j hj).not_free hk hfree

/-- **A file's chain changes within its own and free clusters.** -/
theorem rechain (h : Volume d live clus chain) {i : Fin 100} (hi : live i) {K : List Nat}
    (ht : Touches d d' F S) (hF : ∀ c ∈ F, c ∈ chain i ∨ IsFree d c)
    (hK : FileChain d' (clus i) K) (hsub : ∀ k ∈ K, k ∈ chain i ∨ IsFree d k) :
    Volume d' live clus (Function.update chain i K) := by
  have hF2 : ∀ c ∈ F, 2 ≤ c := by
    intro c hc
    rcases hF c hc with hc | hc
    · exact ((h.chains i hi).range c hc).1
    · exact hc.1
  have hF' : ∀ c ∈ F, (live i ∧ c ∈ chain i) ∨ IsFree d c := fun c hc =>
    (hF c hc).imp (fun hc => ⟨hi, hc⟩) id
  refine h.change i K (ht.reserved hF2 (by decide)) (ht.reserved hF2 (by decide)) ?_
    (fun _ => hK) (fun _ k hk => (hsub k hk).imp (fun hk => ⟨hi, hk⟩) id)
  exact fun j hj hji => ⟨hj, rfl, fun k hk => h.other_chain ht hF' hj hji hk⟩

/-- **A new file on a free cluster.** -/
theorem alloc (h : Volume d live clus chain) {n : Fin 100} {c : Nat} (hc : IsFree d c)
    (ht : Touches d d' {c} S) (hend : getFatNextCluster d' c = 0xFFF)
    (hn : clus' n = c) (hlive : ∀ j, live' j → j ≠ n → live j ∧ clus' j = clus j) :
    Volume d' live' clus' (Function.update chain n [c]) := by
  have hF2 : ∀ x ∈ ({c} : Set Nat), 2 ≤ x := by
    rintro x rfl
    exact hc.1
  have hle := hc.2.1
  refine h.change n [c] (ht.reserved hF2 (by decide)) (ht.reserved hF2 (by decide)) ?_ ?_ ?_
  · intro j hj hjn
    obtain ⟨hl, he⟩ := hlive j hj hjn
    refine ⟨hl, he, fun k hk => ht.fat k ((h.chains j hl).lt_fatEntries hk) ?_⟩
    rintro rfl
    exact (h.chains j hl).not_free hk hc
  · intro _
    rw [hn]
    refine ⟨⟨rfl, ?_, ?_⟩, List.cons_ne_nil _ _, ?_⟩
    · unfold IsEnd
      omega
    · show IsEnd (getFatNextCluster d' c)
      rw [hend]
      decide
    · intro k hk
      rw [List.mem_singleton.mp hk]
      exact ⟨hc.1, hc.2.1⟩
  · intro _ k hk
    rw [List.mem_singleton.mp hk]
    exact .inr hc

/-- **The chains of some files are released.** -/
theorem release (h : Volume d live clus chain) {T : List (Fin 100)}
    (ht : Touches d d' (clustersOf live chain T) S)
    (hlive : ∀ j, live' j → j ∉ T ∧ live j ∧ clus' j = clus j) :
    Volume d' live' clus' chain := by
  have hF2 : ∀ c ∈ clustersOf live chain T, 2 ≤ c := by
    rintro c ⟨x, -, hx, hc⟩
    exact ((h.chains x hx).range c hc).1
  have hother : ∀ j, live' j → ∀ k ∈ chain j, getFatNextCluster d' k = getFatNextCluster d k := by
    intro j hj k hk
    obtain ⟨hjT, hl, -⟩ := hlive j hj
    refine ht.fat k ((h.chains j hl).lt_fatEntries hk) ?_
    rintro ⟨x, hxT, hx, hkx⟩
    exact h.disjoint x j hx hl (fun he => hjT (he ▸ hxT)) hkx hk
  refine ⟨?_, ?_, fun j hj => ?_, fun j k hj hk =>
    h.disjoint j k (hlive j hj).2.1 (hlive k hk).2.1⟩
  · rw [ht.reserved hF2 (by decide)]
    exact h.entry0
  · rw [ht.reserved hF2 (by decide)]
    exact h.entry1
  · obtain ⟨-, hl, hc⟩ := hlive j hj
    rw [hc]
    exact (h.chains j hl).congr (hother j hj)

end Volume

/-! ## What the code does to one chain -/

theorem isEndMark_iff {c : Nat} : isEndMark c = true ↔ IsEnd c := by
  simp [isEndMark, IsEnd]

theorem isEndMark_eq_false {c : Nat} (h : ¬ IsEnd c) : isEndMark c = false :=
  Bool.eq_false_iff.mpr fun he => h (isEndMark_iff.mp he)

/-- The sector of a data cluster; the 16-bit sum does not wrap. -/
theorem u16_sec {c : Nat} (hc : c ≤ 2848) : u16 (c + clusToSec) = c + 31 := by
  unfold u16 clusToSec
  omega

theorem readSector_ok (d : Disk) {sec : Nat} (h : sec ≤ secCnt) : readSector d sec = .ok (d sec) :=
  if_pos h

theorem writeSector_ok (d : Disk) {sec : Nat} (buff : Sector) (h : sec ≤ secCnt) :
    writeSector d sec buff = .ok (Function.update d sec buff) := if_pos h

theorem sec_le {c : Nat} (hc : c ≤ 2848) : c + 31 ≤ secCnt := by
  unfold secCnt
  omega

/-- The sectors of a set of clusters. -/
def sectorsOf (K : List Nat) : Set Nat := {sec | ∃ k ∈ K, sec = k + 31}

/-- `clear_file` along a chain: its entries become zero, its sectors are zeroed,
nothing else changes. -/
theorem clearChain_ok {K : List Nat} {n : Nat} {d : Disk} {c : Nat}
    (hv : Chain.Visits (getFatNextCluster d) IsEnd c K) (hr : ∀ k ∈ K, 2 ≤ k ∧ k ≤ 2848)
    (hn : K.length < n) : ∃ d', clearChain n d c (getFatNextCluster d c) = .ok d' ∧
      Touches d d' {k | k ∈ K} (sectorsOf K) ∧
      ∀ k ∈ K, getFatNextCluster d' k = 0 ∧ d' (k + 31) = Bytes.zero 512 := by
  induction K generalizing n d c with
  | nil =>
    obtain ⟨n, rfl⟩ : ∃ m, n = m + 1 := ⟨n - 1, by rw [List.length_nil] at hn; omega⟩
    refine ⟨d, ?_, Touches.refl .., fun k hk => absurd hk List.not_mem_nil⟩
    rw [clearChain, if_pos (isEndMark_iff.mpr hv)]
  | cons k K ih =>
    obtain ⟨n, rfl⟩ : ∃ m, n = m + 1 := ⟨n - 1, by omega⟩
    have hnd := hv.nodup
    obtain ⟨rfl, hs, hrest⟩ := hv
    have hkK : c ∉ K := (List.nodup_cons.mp hnd).1
    obtain ⟨hc2, hc⟩ := hr c (List.mem_cons_self ..)
    have hcf : c < fatEntries := by
      unfold fatEntries
      omega
    -- the disk after this cluster
    let d1 := putFat (Function.update d (c + 31) (Bytes.zero 512)) c 0
    have hsec : c + 31 ∈ sectorsOf (c :: K) := ⟨c, List.mem_cons_self .., rfl⟩
    have ht : Touches d d1 {k | k ∈ c :: K} (sectorsOf (c :: K)) :=
      (Touches.update d _ (by omega) hsec).trans (Touches.put _ 0 hcf (List.mem_cons_self ..))
    have hd1 : d1 (c + 31) = Bytes.zero 512 := by
      show putFat _ _ _ _ = _
      rw [putFat_outside _ _ hcf (.inr (by omega)), Function.update_self]
    have hsame : ∀ k ∈ K, getFatNextCluster d1 k = getFatNextCluster d k := by
      intro k hk
      have hkr := hr k (List.mem_cons_of_mem _ hk)
      have hkf : k < fatEntries := by
        unfold fatEntries
        omega
      rw [getFat_putFat_ne _ _ hcf hkf (fun he => hkK (he ▸ hk)), getFat_update _ _ (by omega) hkf]
    have hn' : K.length < n := Nat.lt_of_succ_lt_succ hn
    obtain ⟨d', he, ht', hz⟩ := ih (n := n) (hrest.congr hsame)
      (fun k hk => hr k (List.mem_cons_of_mem _ hk)) hn'
    refine ⟨d', ?_, ht.trans (ht'.mono ?_ ?_), ?_⟩
    · rw [clearChain, isEndMark_eq_false hs, if_neg Bool.false_ne_true, clearCluster, u16_sec hc,
        writeSector_ok _ _ (sec_le hc)]
      simp only [bind, Except.bind]
      rw [writeFat_ok _ _ (lt_trans hcf (by decide))]
      exact he
    · exact fun x hx => List.mem_cons_of_mem _ hx
    · rintro x ⟨y, hy, rfl⟩
      exact ⟨y, List.mem_cons_of_mem _ hy, rfl⟩
    · intro x hx
      rcases List.mem_cons.mp hx with rfl | hx
      · -- later clusters of the chain do not touch this one
        have h1 : getFatNextCluster d' x = getFatNextCluster d1 x := ht'.fat x hcf hkK
        have h2 : d' (x + 31) = d1 (x + 31) := by
          refine ht'.data _ (.inr (by omega)) ?_
          rintro ⟨y, hy, hxy⟩
          exact hkK ((by omega : x = y) ▸ hy)
        exact ⟨h1.trans (getFat_putFat_self _ _ hcf), h2.trans hd1⟩
      · exact hz x hx

/-- The first loop of `append_file` finds the last cluster. -/
theorem lastCluster_ok {d : Disk} {A : List Nat} {n : Nat} {c l : Nat}
    (hv : Chain.Visits (getFatNextCluster d) IsEnd c (A ++ [l])) (hn : A.length < n) :
    lastCluster d n c = .ok l := by
  induction A generalizing n c with
  | nil =>
    obtain ⟨n, rfl⟩ : ∃ m, n = m + 1 := ⟨n - 1, by rw [List.length_nil] at hn; omega⟩
    obtain ⟨rfl, -, hs⟩ := hv
    simp only [lastCluster, isEndMark_iff.mpr hs, if_true]
  | cons a A ih =>
    obtain ⟨n, rfl⟩ : ∃ m, n = m + 1 := ⟨n - 1, by omega⟩
    obtain ⟨rfl, -, hrest⟩ := hv
    have hns : ¬ IsEnd (getFatNextCluster d c) := by
      cases A with
      | nil => exact hrest.1 ▸ hrest.2.1
      | cons b A => exact hrest.1 ▸ hrest.2.1
    simp only [lastCluster, isEndMark_eq_false hns, Bool.false_eq_true, if_false]
    exact ih hrest (Nat.lt_of_succ_lt_succ hn)

/-- `append_a_cluster` behind the last cluster of a chain: the chain grows by a
zeroed cluster that was free. -/
theorem FileChain.grow {d : Disk} {c l : Nat} {A : List Nat} (h : FileChain d c (A ++ [l]))
    (h0 : getFatNextCluster d 0 ≠ 0) (h1 : getFatNextCluster d 1 ≠ 0)
    (hfree : ∃ e, IsFree d e) :
    ∃ e d', appendACluster d l = .ok (e, d') ∧ IsFree d e ∧
      FileChain d' c (A ++ [l, e]) ∧ Touches d d' {l, e} {e + 31} ∧
      d' (e + 31) = Bytes.zero 512 := by
  have hlA : l ∈ A ++ [l] := by simp
  have hl := h.lt_fatEntries hlA
  obtain ⟨e, he, hfe, -⟩ := appendACluster_ok (lt_trans hl (by decide)) h0 h1 hfree
  have hef := hfe.lt
  have hne : ∀ k ∈ A ++ [l], k ≠ e := fun k hk hke => h.not_free hk (hke ▸ hfe)
  have hnd := h.visits.nodup
  have hlnA : l ∉ A := fun hm => by
    rw [List.nodup_append'] at hnd
    exact hnd.2.2 hm (List.mem_singleton_self l)
  refine ⟨e, _, he, hfe, ⟨?_, by simp, ?_⟩, ?_, ?_⟩
  · have hupd : ∀ k, k < fatEntries →
        getFatNextCluster (Function.update d (e + 31) (Bytes.zero 512)) k =
          getFatNextCluster d k := fun k hk =>
      getFat_update d _ (by have := hfe.1; omega) hk
    refine h.visits.extend ?_ ?_ ?_ ?_
    · intro k hk
      have hkA : k ∈ A ++ [l] := List.mem_append_left _ hk
      have hkf := h.lt_fatEntries hkA
      rw [getFat_putFat_ne _ _ hef hkf (hne k hkA),
        getFat_putFat_ne _ _ hl hkf (fun he => hlnA (he ▸ hk)), hupd k hkf]
    · rw [getFat_putFat_ne _ _ hef hl (hne l hlA), getFat_putFat_self _ _ hl]
      have := hfe.2.1
      omega
    · have := hfe.2.1
      unfold IsEnd
      omega
    · rw [getFat_putFat_self _ _ hef]
      decide
  · intro k hk
    rcases List.mem_append.mp hk with hk | hk
    · exact h.range k (List.mem_append_left _ hk)
    · rcases List.mem_cons.mp hk with rfl | hk
      · exact h.range k hlA
      · rw [List.mem_singleton.mp hk]
        exact ⟨hfe.1, hfe.2.1⟩
  · have hge := hfe.1
    exact ((Touches.update d _ (by omega) (Set.mem_singleton _)).trans
      (Touches.put _ _ hl (by simp))).trans (Touches.put _ _ hef (by simp))
  · have hge := hfe.1
    rw [putFat_outside _ _ hef (.inr (by omega)), putFat_outside _ _ hl (.inr (by omega)),
      Function.update_self]

/-- Writing the end mark into an entry of a chain cuts the chain there. -/
theorem FileChain.truncate {d : Disk} {c l : Nat} {A B : List Nat}
    (h : FileChain d c (A ++ l :: B)) : FileChain (putFat d l 0xFFF) c (A ++ [l]) := by
  have hlA : l ∈ A ++ l :: B := by simp
  have hl := h.lt_fatEntries hlA
  have hnd := h.visits.nodup
  refine ⟨h.visits.cut ?_ ?_, by simp, ?_⟩
  · intro k hk
    refine getFat_putFat_ne d _ hl (h.lt_fatEntries (List.mem_append_left _ hk)) ?_
    rintro rfl
    rw [List.nodup_append'] at hnd
    exact hnd.2.2 hk (List.mem_cons_self ..)
  · rw [getFat_putFat_self _ _ hl]
    decide
  · intro k hk
    refine h.range k ?_
    rcases List.mem_append.mp hk with hk | hk
    · exact List.mem_append_left _ hk
    · rw [List.mem_singleton.mp hk]
      exact hlA

end GwOS
