import GwOS.Filesystem.Directory

/-!
# Cutting and growing chains

What the three functions that change the FAT do to a family of chains, of files or of anything
else: the family has any number of members, and nothing is said about the tree of nodes.

- `findEmptyCluster_least`: the cluster found is the first one with entry zero.
- `Chains.append`: the chain of one member grows by a cluster that was in none, and the others
  stay.
- `Chains.clear`: the chain of one member is released, cluster by cluster, and the others stay.
-/

namespace GwOS

/-- **`find_empty_cluster`** returns the first cluster with entry zero, which is a data cluster,
and changes nothing but its sector. -/
theorem findEmptyCluster_least {d : Disk} (h0 : getFatNextCluster d 0 ≠ 0)
    (h1 : getFatNextCluster d 1 ≠ 0)
    (hfree : ∃ c, 2 ≤ c ∧ c ≤ 2848 ∧ getFatNextCluster d c = 0) :
    ∃ c d', findEmptyCluster d = .ok (c, d') ∧ IsLeast {c | getFatNextCluster d c = 0} c ∧
      2 ≤ c ∧ c ≤ 2848 ∧ d' (c + 31) = Bytes.zero 512 ∧ (∀ sec, sec ≠ c + 31 → d' sec = d sec) ∧
      ∀ sec, 1 ≤ sec → sec ≤ 18 → d' sec = d sec := by
  obtain ⟨c, hrun, ⟨h2, hle, hzero⟩, hmin⟩ := findEmptyCluster_ok h0 h1 hfree
  refine ⟨c, _, hrun, ⟨hzero, fun e he => ?_⟩, h2, hle, Function.update_self .., ?_, ?_⟩
  · by_contra hlt
    exact hmin e (not_le.mp hlt) he
  · exact fun sec hsec => Function.update_of_ne hsec ..
  · exact fun sec _ h18 => Function.update_of_ne (by omega) ..

/-- On the volume with one file, whose only cluster is number 2, the first free one is number 3. -/
theorem findEmptyCluster_least_oneFile :
    ∃ c d', findEmptyCluster oneFileFs.sdb = .ok (c, d') ∧ c ≤ 3 ∧ d' (c + 31) = Bytes.zero 512 := by
  have h3 : getFatNextCluster oneFileFs.sdb 3 = 0 := by decide
  obtain ⟨c, d', hrun, hleast, -, -, hzero, -⟩ := findEmptyCluster_least (d := oneFileFs.sdb) (by decide)
    (by decide) ⟨3, by decide, by decide, h3⟩
  exact ⟨c, d', hrun, hleast.2 h3, hzero⟩

/-! ## Families of chains -/

/-- A well-formed volume: the reserved entries are not zero, and each member of the family has its
chain, disjoint from the others. -/
structure Chains {ι : Type*} (d : Disk) (start : ι → Nat) (chain : ι → List Nat) : Prop where
  entry0 : getFatNextCluster d 0 ≠ 0
  entry1 : getFatNextCluster d 1 ≠ 0
  chains : ∀ i, FileChain d (start i) (chain i)
  disjoint : ∀ i j, i ≠ j → List.Disjoint (chain i) (chain j)

/-- The entries and the sectors of these clusters are as they were. -/
def Untouched (d d' : Disk) (K : List Nat) : Prop :=
  ∀ k ∈ K, getFatNextCluster d' k = getFatNextCluster d k ∧ d' (k + 31) = d (k + 31)

namespace Chains

variable {ι : Type*} {d d' : Disk} {start : ι → Nat} {chain : ι → List Nat}

/-- No data sector and no entry of a chain is touched when none of its clusters is. -/
theorem untouched (h : Chains d start chain) {F : List Nat} (ht : Touches d d' {k | k ∈ F} (sectorsOf F))
    {j : ι} (hj : List.Disjoint F (chain j)) : Untouched d d' (chain j) := by
  intro k hk
  refine ⟨ht.fat k ((h.chains j).lt_fatEntries hk) fun hkF => hj hkF hk, ht.data _ (.inr ?_) ?_⟩
  · have := (h.chains j).range k hk
    omega
  · rintro ⟨e, he, hke⟩
    exact hj ((by omega : k = e) ▸ he) hk

/-- The reserved entries stay when only data clusters are touched. -/
theorem reserved_ne (h : Chains d start chain) {F S : Set Nat} (ht : Touches d d' F S)
    (hF : ∀ c ∈ F, 2 ≤ c) : getFatNextCluster d' 0 ≠ 0 ∧ getFatNextCluster d' 1 ≠ 0 := by
  rw [ht.reserved hF (by decide : 0 < 2), ht.reserved hF (by decide : 1 < 2)]
  exact ⟨h.entry0, h.entry1⟩

/-- A chain that grows by a free cluster is still disjoint from the others. -/
theorem append [DecidableEq ι] (h : Chains d start chain) (i : ι) {l : Nat} (hl : l ∈ (chain i).getLast?)
    (hfree : ∃ e, IsFree d e) :
    ∃ c d', appendACluster d l = .ok (c, d') ∧ (∀ j, c ∉ chain j) ∧
      Chains d' start (Function.update chain i (chain i ++ [c])) ∧ d' (c + 31) = Bytes.zero 512 ∧
      (∀ k ∈ chain i, d' (k + 31) = d (k + 31)) ∧ ∀ j, j ≠ i → Untouched d d' (chain j) := by
  obtain ⟨A, hA⟩ : ∃ A, chain i = A ++ [l] := ⟨_, (List.dropLast_append_getLast? l hl).symm⟩
  have hK := h.chains i
  rw [hA] at hK
  obtain ⟨c, d', hrun, hc, hgrown, ht, hzero⟩ := hK.grow h.entry0 h.entry1 hfree
  have hnot : ∀ j, c ∉ chain j := fun j hm => (h.chains j).not_free hm hc
  have hother : ∀ j, j ≠ i → Untouched d d' (chain j) := by
    intro j hji
    have hlj : l ∉ chain j := fun hm => h.disjoint j i hji hm (by rw [hA]; simp)
    intro k hk
    have hkc : k ≠ c := fun he => hnot j (he ▸ hk)
    refine ⟨ht.fat k ((h.chains j).lt_fatEntries hk) ?_, ht.data _ (.inr ?_) ?_⟩
    · rintro (rfl | rfl)
      · exact hlj hk
      · exact hnot j hk
    · have := (h.chains j).range k hk
      omega
    · intro he
      exact hkc (Nat.add_right_cancel he)
  have hreserved := h.reserved_ne ht (by
    rintro e (rfl | rfl)
    · exact (hK.range e (by simp)).1
    · exact hc.1)
  refine ⟨c, d', hrun, hnot, ⟨hreserved.1, hreserved.2, fun j => ?_, fun j k hjk => ?_⟩, hzero,
    fun k hk => ht.data _ (.inr ?_) ?_, hother⟩
  · by_cases hji : j = i
    · subst hji
      rw [Function.update_self, hA, List.append_assoc]
      exact hgrown
    · rw [Function.update_of_ne hji]
      exact (h.chains j).congr fun k hk => (hother j hji k hk).1
  · -- the new cluster was in none
    have hgrow : ∀ j, j ≠ i → List.Disjoint (chain i ++ [c]) (chain j) := by
      intro j hji
      rw [List.disjoint_append_left]
      exact ⟨h.disjoint i j (Ne.symm hji), List.singleton_disjoint.mpr (hnot j)⟩
    refine Chain.disjoint_update hjk (fun hji => ?_) (fun hki => ?_) fun _ _ => h.disjoint j k hjk
    · subst hji
      exact hgrow k (Ne.symm hjk)
    · subst hki
      exact hgrow j hjk
  · have := (h.chains i).range k hk
    omega
  · intro he
    exact hnot i (Nat.add_right_cancel he ▸ hk)

/-- A released chain leaves zeros behind, and the other chains as they were. -/
theorem clear (h : Chains d start chain) (i : ι) {s : Fs} {r : FileRef} (hs : s.sdb = d)
    (hr : (s.file r).fstClus.toNat = start i) :
    ∃ d', clearFile s r = .ok { s with sdb := d' } ∧
      (∀ c, c < fatEntries →
        getFatNextCluster d' c = if c ∈ chain i then 0 else getFatNextCluster d c) ∧
      (∀ sec, sec = 0 ∨ 19 ≤ sec →
        (sec ∈ sectorsOf (chain i) → d' sec = Bytes.zero 512) ∧
        (sec ∉ sectorsOf (chain i) → d' sec = d sec)) ∧
      Chains d' (fun j : {j // j ≠ i} => start j) (fun j => chain j) ∧
      ∀ j, j ≠ i → Untouched d d' (chain j) := by
  subst hs
  have hK := h.chains i
  have hlen : (chain i).length < walkFuel := by
    have := hK.length_lt
    unfold walkFuel
    omega
  obtain ⟨d', hrun, ht, hz⟩ := clearChain_ok hK.visits hK.range hlen
  have hother : ∀ j, j ≠ i → Untouched s.sdb d' (chain j) := fun j hji =>
    h.untouched ht (h.disjoint i j (Ne.symm hji))
  have hreserved := h.reserved_ne ht fun c hc => (hK.range c hc).1
  refine ⟨d', ?_, fun c hc => ?_, fun sec hsec => ⟨?_, fun hn => ht.data sec hsec hn⟩,
    ⟨hreserved.1, hreserved.2, fun j => ?_, fun j k hjk => ?_⟩, hother⟩
  · unfold clearFile
    rw [hr]
    simp only [bind, Except.bind, hrun]
    rfl
  · by_cases hci : c ∈ chain i
    · rw [if_pos hci, (hz c hci).1]
    · rw [if_neg hci, ht.fat c hc hci]
  · rintro ⟨k, hk, rfl⟩
    exact (hz k hk).2
  · exact (h.chains j.1).congr fun k hk => (hother j.1 j.2 k hk).1
  · exact h.disjoint j.1 k.1 fun he => hjk (Subtype.ext he)

end Chains

/-- **Chain surgery is local.** On a well-formed volume, `append_a_cluster` behind the last cluster of
a chain makes the chain longer by a zeroed cluster that was in none, if one is free; `clear_file` on
a file with a chain returns, and sets to zero the entries and the sectors of the chain and no others.
The other chains and their data stay as they are, and the volume stays well-formed. -/
theorem chainSurgery_local {ι : Type*} [DecidableEq ι] {d : Disk} {start : ι → Nat}
    {chain : ι → List Nat} (h : Chains d start chain) (i : ι) :
    (∀ l ∈ (chain i).getLast?, (∃ e, IsFree d e) →
      ∃ c d', appendACluster d l = .ok (c, d') ∧ (∀ j, c ∉ chain j) ∧
        Chains d' start (Function.update chain i (chain i ++ [c])) ∧ d' (c + 31) = Bytes.zero 512 ∧
        (∀ k ∈ chain i, d' (k + 31) = d (k + 31)) ∧ ∀ j, j ≠ i → Untouched d d' (chain j)) ∧
    ∀ (s : Fs) (r : FileRef), s.sdb = d → (s.file r).fstClus.toNat = start i →
      ∃ d', clearFile s r = .ok { s with sdb := d' } ∧
        (∀ c, c < fatEntries →
          getFatNextCluster d' c = if c ∈ chain i then 0 else getFatNextCluster d c) ∧
        (∀ sec, sec = 0 ∨ 19 ≤ sec →
          (sec ∈ sectorsOf (chain i) → d' sec = Bytes.zero 512) ∧
          (sec ∉ sectorsOf (chain i) → d' sec = d sec)) ∧
        Chains d' (fun j : {j // j ≠ i} => start j) (fun j => chain j) ∧
        ∀ j, j ≠ i → Untouched d d' (chain j) :=
  ⟨fun _ hl hfree => h.append i hl hfree, fun _ _ hs hr => h.clear i hs hr⟩

/-- The chain of the only file grows, and is released. -/
theorem chainSurgery_local_oneFile :
    (∃ c d', appendACluster oneFileFs.sdb 2 = .ok (c, d') ∧ c ≠ 2) ∧
      ∃ d', clearFile oneFileFs (.slot 0) = .ok { oneFileFs with sdb := d' } ∧
        getFatNextCluster d' 2 = 0 := by
  have hend : IsEnd (getFatNextCluster oneFileFs.sdb 2) := by decide
  have hchains : Chains oneFileFs.sdb (fun _ : Unit => 2) (fun _ => [2]) :=
    ⟨by decide, by decide, fun _ => ⟨⟨rfl, by decide, hend⟩, by decide, by decide⟩,
      fun i j hij => absurd rfl hij⟩
  obtain ⟨happend, hclear⟩ := chainSurgery_local hchains ()
  obtain ⟨c, d', hrun, hnot, -⟩ := happend 2 rfl ⟨3, by decide, by decide, by decide⟩
  obtain ⟨d2, hrun2, hzero, -⟩ := hclear oneFileFs (.slot 0) rfl rfl
  refine ⟨⟨c, d', hrun, fun hc => hnot () (by simp [hc])⟩, d2, hrun2, ?_⟩
  rw [hzero 2 (by decide), if_pos (List.mem_singleton_self 2)]

end GwOS
