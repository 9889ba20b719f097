import GwOS.Filesystem.Create

/-!
# Staged sectors

`write_file` and `write_file_from_sda` stage one sector after the other in a
linked list of `AFBLNode`s and step, or grow, the file's chain in lockstep;
`close_file` flushes the list along the chain. Both writers run the same block
for each sector, so they are reduced to one loop over the list of sectors
(`stageAll`), which is specified once:

- `Staged` is the list of nodes with the staged sectors,
- `Grown` says that a chain has grown by clusters that were free,
- `Staging` is the invariant of the loop, `Staging.step` its step lemma and
  `stageAll_ok` its run lemma,
- `writeStaged_eq` and `copyFromSda_eq` are the reductions of the two writers,
- `flushNodes_ok` is the loop of `active_file_close`.
-/

namespace GwOS

/-! ## Growing a chain -/

/-- A cluster that is free after changes inside the chain `K` was free before. -/
theorem Touches.free_back {d d' : Disk} {c e : Nat} {K : List Nat} {S : Set Nat}
    (h : Touches d d' {k | k ∈ K} S) (hK : FileChain d' c K) (he : IsFree d' e) : IsFree d e := by
  have hnot : e ∉ K := fun hm => hK.not_free hm he
  exact ⟨he.1, he.2.1, (h.fat e he.lt hnot).symm.trans he.2.2⟩

/-- The chain `K` from `c` has become `K ++ E`, with clusters `E` that were free;
only the sectors of `E` have changed. -/
structure Grown (d d' : Disk) (c : Nat) (K E : List Nat) : Prop where
  chain : FileChain d' c (K ++ E)
  free : ∀ e ∈ E, IsFree d e
  touches : Touches d d' {k | k ∈ K ++ E} (sectorsOf E)
  count : (freeClusters d).card ≤ (freeClusters d').card + E.length

namespace Grown

variable {d d' d'' : Disk} {c : Nat} {K E E' : List Nat}

theorem refl (h : FileChain d c K) : Grown d d c K [] :=
  ⟨by rwa [List.append_nil], fun e he => absurd he List.not_mem_nil, Touches.refl ..,
    Nat.le_add_right _ _⟩

theorem trans (h : Grown d d' c K E) (h' : Grown d' d'' c (K ++ E) E') :
    Grown d d'' c K (E ++ E') := by
  have hsec : ∀ {x : Nat}, x ∈ sectorsOf E ∨ x ∈ sectorsOf E' → x ∈ sectorsOf (E ++ E') := by
    rintro x (⟨k, hk, rfl⟩ | ⟨k, hk, rfl⟩)
    · exact ⟨k, List.mem_append_left _ hk, rfl⟩
    · exact ⟨k, List.mem_append_right _ hk, rfl⟩
  refine ⟨by rw [← List.append_assoc]; exact h'.chain, ?_, ?_, ?_⟩
  · intro e he
    rcases List.mem_append.mp he with he | he
    · exact h.free e he
    · exact h.touches.free_back h.chain (h'.free e he)
  · refine Touches.trans (h.touches.mono ?_ fun x hx => hsec (.inl hx))
      (h'.touches.mono ?_ fun x hx => hsec (.inr hx))
    · intro k hk
      rw [← List.append_assoc]
      exact List.mem_append_left _ hk
    · intro k hk
      rw [← List.append_assoc]
      exact hk
  · have h1 := h.count
    have h2 := h'.count
    rw [List.length_append]
    omega

/-- `append_a_cluster` behind the last cluster. -/
theorem append {l : Nat} {A : List Nat} (h : FileChain d c (A ++ [l]))
    (h0 : getFatNextCluster d 0 ≠ 0) (h1 : getFatNextCluster d 1 ≠ 0)
    (hfree : 0 < (freeClusters d).card) :
    ∃ e d', appendACluster d l = .ok (e, d') ∧ Grown d d' c (A ++ [l]) [e] := by
  obtain ⟨e, d', he, hf, hc, ht, -⟩ := h.grow h0 h1 (isFree_of_card_pos hfree)
  refine ⟨e, d', he, by simpa using hc, ?_, ?_, ?_⟩
  · intro x hx
    rw [List.mem_singleton.mp hx]
    exact hf
  · refine ht.mono ?_ ?_
    · rintro x (rfl | rfl)
      · simp
      · simp
    · rintro x rfl
      exact ⟨e, List.mem_singleton_self e, rfl⟩
  · refine card_freeClusters_le (c := e) fun k hk hke => ht.isFree hk ?_
    rintro (rfl | rfl)
    · exact h.not_free (by simp) hk
    · exact hke rfl

/-- The reserved entries do not change. -/
theorem reserved (h : Grown d d' c K E) {x : Nat} (hx : x < 2) :
    getFatNextCluster d' x = getFatNextCluster d x :=
  h.touches.reserved (fun k hk => (h.chain.range k hk).1) hx

/-- The file that has grown keeps its place in the volume. -/
theorem volume {live : Fin 100 → Prop} {clus : Fin 100 → Nat} {chain : Fin 100 → List Nat}
    {i : Fin 100} (hv : Volume d live clus chain) (hi : live i)
    (h : Grown d d' (clus i) (chain i) E) :
    Volume d' live clus (Function.update chain i (chain i ++ E)) := by
  have hsub : ∀ k ∈ chain i ++ E, k ∈ chain i ∨ IsFree d k := by
    intro k hk
    exact (List.mem_append.mp hk).imp id (h.free k)
  exact hv.rechain hi h.touches hsub h.chain hsub

end Grown

/-! ## Staged sectors -/

/-- The list of nodes from `p` is `N`, in use, with the sectors `B`. -/
def Staged (nodes : Fin 100 → AFBLNode) : Option (Fin 100) → List (Fin 100) → List Sector → Prop
  | p, [], [] => p = none
  | p, j :: N, b :: B =>
    p = some j ∧ (nodes j).used = true ∧ (nodes j).buff = b ∧ Staged nodes (nodes j).next N B
  | _, _, _ => False

theorem Staged.congr {nodes nodes' : Fin 100 → AFBLNode} : ∀ {N : List (Fin 100)}
    {B : List Sector} {p : Option (Fin 100)}, Staged nodes p N B →
    (∀ j ∈ N, nodes' j = nodes j) → Staged nodes' p N B
  | [], [], _, h, _ => h
  | [], _ :: _, _, h, _ => h.elim
  | _ :: _, [], _, h, _ => h.elim
  | j :: N, b :: B, p, h, hs => by
    obtain ⟨hp, hu, hb, hrest⟩ := h
    refine ⟨hp, ?_⟩
    rw [hs j (List.mem_cons_self ..)]
    exact ⟨hu, hb, hrest.congr fun x hx => hs x (List.mem_cons_of_mem _ hx)⟩

theorem Staged.length_eq {nodes : Fin 100 → AFBLNode} : ∀ {N : List (Fin 100)}
    {B : List Sector} {p : Option (Fin 100)}, Staged nodes p N B → N.length = B.length
  | [], [], _, _ => rfl
  | [], _ :: _, _, h => h.elim
  | _ :: _, [], _, h => h.elim
  | _ :: _, _ :: _, _, h => congrArg (· + 1) h.2.2.2.length_eq

theorem Staged.used {nodes : Fin 100 → AFBLNode} : ∀ {N : List (Fin 100)}
    {B : List Sector} {p : Option (Fin 100)}, Staged nodes p N B →
    ∀ x ∈ N, (nodes x).used = true
  | [], _, _, _, _, hx => absurd hx List.not_mem_nil
  | _ :: _, [], _, h, _, _ => h.elim
  | _ :: _, _ :: _, _, h, x, hx => by
    rcases List.mem_cons.mp hx with rfl | hx
    · exact h.2.1
    · exact h.2.2.2.used x hx

/-- The list ends at its last node. -/
theorem Staged.last {nodes : Fin 100 → AFBLNode} {j : Fin 100} : ∀ {N : List (Fin 100)}
    {B : List Sector} {p : Option (Fin 100)}, Staged nodes p (N ++ [j]) B →
    (nodes j).next = none
  | [], [_], _, h => h.2.2.2
  | [], [], _, h => h.elim
  | [], _ :: _ :: _, _, h => h.2.2.2.elim
  | _ :: _, [], _, h => h.elim
  | _ :: N, _ :: _, _, h => Staged.last (N := N) h.2.2.2

/-- Overwriting the sector in the last node. -/
theorem Staged.setLast {nodes nodes' : Fin 100 → AFBLNode} {j : Fin 100} {b b' : Sector} :
    ∀ {N : List (Fin 100)} {B : List Sector} {p : Option (Fin 100)},
      Staged nodes p (N ++ [j]) (B ++ [b]) → (N ++ [j]).Nodup →
      (∀ x ∈ N, nodes' x = nodes x) →
      nodes' j = { buff := b', next := none, used := true } →
      Staged nodes' p (N ++ [j]) (B ++ [b'])
  | [], [], _, h, _, _, hj => by
    refine ⟨h.1, ?_⟩
    rw [hj]
    exact ⟨rfl, rfl, rfl⟩
  | [], _ :: B, _, h, _, _, _ => by
    have := h.length_eq
    simp at this
  | _ :: N, [], _, h, _, _, _ => by
    have := h.length_eq
    simp at this
  | a :: N, b₀ :: B, p, h, hn, hs, hj => by
    obtain ⟨hp, hu, hb, hrest⟩ := h
    refine ⟨hp, ?_⟩
    rw [hs a (List.mem_cons_self ..)]
    exact ⟨hu, hb, Staged.setLast hrest (List.nodup_cons.mp hn).2
      (fun x hx => hs x (List.mem_cons_of_mem _ hx)) hj⟩

/-- Linking a fresh node behind the last one. -/
theorem Staged.extend {nodes nodes' : Fin 100 → AFBLNode} {j e : Fin 100} {b : Sector} :
    ∀ {N : List (Fin 100)} {B : List Sector} {p : Option (Fin 100)},
      Staged nodes p (N ++ [j]) B → (N ++ [j]).Nodup → (∀ x ∈ N, nodes' x = nodes x) →
      nodes' j = { nodes j with next := some e } →
      nodes' e = { buff := b, next := none, used := true } →
      Staged nodes' p (N ++ [j, e]) (B ++ [b])
  | [], [b₀], _, h, _, _, hj, he => by
    obtain ⟨hp, hu, hb, -⟩ := h
    refine ⟨hp, ?_⟩
    rw [hj]
    refine ⟨hu, hb, rfl, ?_⟩
    rw [he]
    exact ⟨rfl, rfl, rfl⟩
  | [], [], _, h, _, _, _, _ => h.elim
  | [], _ :: _ :: _, _, h, _, _, _, _ => h.2.2.2.elim
  | _ :: _, [], _, h, _, _, _, _ => h.elim
  | a :: N, b₀ :: B, p, h, hn, hs, hj, he => by
    obtain ⟨hp, hu, hb, hrest⟩ := h
    refine ⟨hp, ?_⟩
    rw [hs a (List.mem_cons_self ..)]
    exact ⟨hu, hb, Staged.extend hrest (List.nodup_cons.mp hn).2
      (fun x hx => hs x (List.mem_cons_of_mem _ hx)) hj he⟩

/-- The nodes of `AFBLNodelist` that are not in use. -/
def freeNodes (s : Fs) : Finset (Fin 100) :=
  Finset.univ.filter fun j => (s.afblNodelist j).used = false

theorem mem_freeNodes {s : Fs} {j : Fin 100} :
    j ∈ freeNodes s ↔ (s.afblNodelist j).used = false := by
  simp [freeNodes]

/-- `get_empty_AFBLNode` takes a free node when there is one. -/
theorem getEmptyAFBLNode_ok {s : Fs} (h : 0 < (freeNodes s).card) :
    ∃ j, (s.afblNodelist j).used = false ∧ getEmptyAFBLNode s =
      (some j, s.setNode j { buff := Bytes.zero 512, next := none, used := true }) := by
  obtain ⟨j, hj⟩ := Finset.card_pos.mp h
  have hj' := mem_freeNodes.mp hj
  obtain ⟨i, hi⟩ := Option.isSome_iff_exists.mp
    ((List.find?_isSome (p := fun j => !(s.afblNodelist j).used)).mpr
      ⟨j, List.mem_finRange j, by simp [hj']⟩)
  have hu := List.find?_some hi
  refine ⟨i, by simpa using hu, ?_⟩
  simp only [getEmptyAFBLNode, emptyNode, hi]

theorem getEmptyAFBLNode_none {s : Fs} (h : (freeNodes s).card = 0) :
    getEmptyAFBLNode s = (none, s) := by
  have hnone : (List.finRange 100).find? (fun j => !(s.afblNodelist j).used) = none := by
    refine List.find?_eq_none.mpr fun j _ hj => ?_
    have hm : j ∈ freeNodes s := mem_freeNodes.mpr (by simpa using hj)
    rw [Finset.card_eq_zero.mp h] at hm
    exact absurd hm (Finset.notMem_empty j)
  simp only [getEmptyAFBLNode, emptyNode, hnone]

/-! ## The staging loop -/

/-- Stage the sectors one after the other: what the loops of `write_file` and of
`write_file_from_sda` do. The first sector needs no step along the chain. -/
def stageAll : List Sector → Fs → Nat → Option (Fin 100) → Bool →
    Except Fault (Bool × Nat × Option (Fin 100) × Fs)
  | [], s, clusID, now, _ => .ok (true, clusID, now, s)
  | b :: bs, s, clusID, now, first => do
    let (ok, clusID, now, s) ←
      if first then pure (true, clusID, now, s) else nextStage s clusID now
    if !ok then pure (false, clusID, now, s)
    else
      let s ← initAFBLNode s now b none
      stageAll bs s clusID now false

/-- The next cluster of the chain, grown if it was the last one. -/
theorem nextStage_chain {s : Fs} {c l : Nat} {P Q : List Nat} (j : Fin 100)
    (hK : FileChain s.sdb c (P ++ l :: Q)) (h0 : getFatNextCluster s.sdb 0 ≠ 0)
    (h1 : getFatNextCluster s.sdb 1 ≠ 0) (hfree : Q = [] → 0 < (freeClusters s.sdb).card) :
    ∃ q Q' E d', Grown s.sdb d' c (P ++ l :: Q) E ∧ Q ++ E = q :: Q' ∧
      E.length = 1 - Q.length ∧ nextStage s l (some j) =
        (match getEmptyAFBLNode { s with sdb := d' } with
        | (none, s) => .ok (false, q, some j, s.setNode j { s.afblNodelist j with next := none })
        | (some e, s) =>
          .ok (true, q, some e, s.setNode j { s.afblNodelist j with next := some e })) := by
  have hneg : ∀ q : Nat, ¬ ((q : Int) = -1) := fun q => by omega
  cases Q with
  | nil =>
    have hend : IsEnd (getFatNextCluster s.sdb l) := hK.visits.next_last
    obtain ⟨e, d', he, hg⟩ := Grown.append hK h0 h1 (hfree rfl)
    refine ⟨e, [], [e], d', hg, rfl, rfl, ?_⟩
    simp only [nextStage, isEndMark_iff.mpr hend, if_true, he, bind, Except.bind, linkNext, hneg,
      if_false]
    cases getEmptyAFBLNode { s with sdb := d' } with
    | mk next s1 => cases next <;> rfl
  | cons q Q =>
    have hq : getFatNextCluster s.sdb l = q := hK.visits.next_mem
    have hns : ¬ IsEnd q := hK.visits.not_stop_of_mem (by simp)
    refine ⟨q, Q, [], s.sdb, Grown.refl hK, by simp, by simp, ?_⟩
    simp only [nextStage, hq, isEndMark_eq_false hns, Bool.false_eq_true, if_false, linkNext, hneg]
    cases getEmptyAFBLNode s with
    | mk next s1 => cases next <;> rfl

/-- The invariant of the loop: `N ++ [j]` are the staged nodes with the sectors `B`,
`P ++ l :: Q` is the chain, and `l` is the cluster of the node `j`. -/
structure Staging (s : Fs) (c : Nat) (p : Option (Fin 100)) (P : List Nat) (l : Nat)
    (Q : List Nat) (N : List (Fin 100)) (j : Fin 100) (B : List Sector) : Prop where
  entry0 : getFatNextCluster s.sdb 0 ≠ 0
  entry1 : getFatNextCluster s.sdb 1 ≠ 0
  chain : FileChain s.sdb c (P ++ l :: Q)
  staged : Staged s.afblNodelist p (N ++ [j]) B
  nodup : (N ++ [j]).Nodup
  length : N.length = P.length

/-- A node that is free is not in the list. -/
theorem Staging.ne_free {s : Fs} {c : Nat} {p : Option (Fin 100)} {P Q : List Nat} {l : Nat}
    {N : List (Fin 100)} {j : Fin 100} {B : List Sector} (h : Staging s c p P l Q N j B)
    {e : Fin 100} (he : (s.afblNodelist e).used = false) {x : Fin 100} (hx : x ∈ N ++ [j]) :
    x ≠ e := by
  rintro rfl
  have := h.staged.used x hx
  rw [he] at this
  cases this

/-- The nodes after one more sector has been staged in the node `e`. -/
structure NodeAdded (s s' : Fs) (j e : Fin 100) (b : Sector) : Prop where
  new : s'.afblNodelist e = { buff := b, next := none, used := true }
  last : s'.afblNodelist j = { s.afblNodelist j with next := some e }
  other : ∀ x, x ≠ e → x ≠ j → s'.afblNodelist x = s.afblNodelist x

/-- The code of one round, when there is a free node. -/
theorem stageAll_cons {s : Fs} {d' : Disk} {l q : Nat} {j : Fin 100} {b : Sector}
    (hju : (s.afblNodelist j).used = true)
    (hnext : nextStage s l (some j) =
      (match getEmptyAFBLNode { s with sdb := d' } with
      | (none, s) => .ok (false, q, some j, s.setNode j { s.afblNodelist j with next := none })
      | (some e, s) =>
        .ok (true, q, some e, s.setNode j { s.afblNodelist j with next := some e })))
    (hfn : 0 < (freeNodes s).card) :
    ∃ e s', (s.afblNodelist e).used = false ∧ NodeAdded s s' j e b ∧
      s' = { s with sdb := d', afblNodelist := s'.afblNodelist } ∧
      ∀ bs, stageAll (b :: bs) s l (some j) false = stageAll bs s' q (some e) false := by
  obtain ⟨e, he, hget⟩ := getEmptyAFBLNode_ok (s := { s with sdb := d' }) hfn
  have hje : j ≠ e := by
    rintro rfl
    rw [show (s.afblNodelist j).used = false from he] at hju
    cases hju
  rw [hget] at hnext
  generalize hs2 : Fs.setNode { s with sdb := d' } e
    { buff := Bytes.zero 512, next := none, used := true } = s2 at hnext
  have hs2e : s2.afblNodelist e = { buff := Bytes.zero 512, next := none, used := true } := by
    rw [← hs2]
    exact Function.update_self ..
  have hs2n : ∀ x, x ≠ e → s2.afblNodelist x = s.afblNodelist x := by
    intro x hx
    rw [← hs2]
    exact Function.update_of_ne hx ..
  refine ⟨e, (s2.setNode j { s2.afblNodelist j with next := some e }).setNode e
    { buff := b, next := none, used := true }, he, ⟨?_, ?_, ?_⟩, ?_, fun bs => ?_⟩
  · exact Function.update_self ..
  · rw [← hs2n j hje]
    simp only [Fs.setNode, Function.update_of_ne hje, Function.update_self]
  · intro x hxe hxj
    rw [← hs2n x hxe]
    simp only [Fs.setNode, Function.update_of_ne hxe, Function.update_of_ne hxj]
  · rw [← hs2]
    rfl
  · have hXe : (s2.setNode j { s2.afblNodelist j with next := some e }).afblNodelist e =
        { buff := Bytes.zero 512, next := none, used := true } := by
      simp only [Fs.setNode, Function.update_of_ne hje.symm, hs2e]
    simp only [stageAll, Bool.false_eq_true, if_false, hnext, bind, Except.bind, Bool.not_true,
      initAFBLNode, hXe]

/-- **One round of the loop** keeps the invariant. -/
theorem Staging.step {s : Fs} {c : Nat} {p : Option (Fin 100)} {P Q : List Nat} {l : Nat}
    {N : List (Fin 100)} {j : Fin 100} {B : List Sector} (h : Staging s c p P l Q N j B)
    (hfree : Q = [] → 0 < (freeClusters s.sdb).card) (hfn : 0 < (freeNodes s).card) (b : Sector) :
    ∃ q Q' E e s', Grown s.sdb s'.sdb c (P ++ l :: Q) E ∧ Q ++ E = q :: Q' ∧
      E.length = 1 - Q.length ∧ Staging s' c p (P ++ [l]) q Q' (N ++ [j]) e (B ++ [b]) ∧
      (s.afblNodelist e).used = false ∧ NodeAdded s s' j e b ∧
      s' = { s with sdb := s'.sdb, afblNodelist := s'.afblNodelist } ∧
      ∀ bs, stageAll (b :: bs) s l (some j) false = stageAll bs s' q (some e) false := by
  obtain ⟨q, Q', E, d', hg, hQE, hElen, hnext⟩ := nextStage_chain j h.chain h.entry0 h.entry1 hfree
  obtain ⟨e, s', he, hadd, hrest, hrun⟩ := stageAll_cons (h.staged.used j (by simp)) hnext hfn
  have hsdb : s'.sdb = d' := by rw [hrest]
  rw [← hsdb] at hg hrest
  refine ⟨q, Q', E, e, s', hg, hQE, hElen, ⟨?_, ?_, ?_, ?_, ?_, ?_⟩, he, hadd, hrest, hrun⟩
  · rw [hg.reserved (by decide)]
    exact h.entry0
  · rw [hg.reserved (by decide)]
    exact h.entry1
  · have hpos : (P ++ l :: Q) ++ E = (P ++ [l]) ++ q :: Q' := by
      simp only [List.append_assoc, List.cons_append, List.nil_append, hQE]
    rw [← hpos]
    exact hg.chain
  · rw [List.append_assoc]
    refine h.staged.extend h.nodup (fun x hx => ?_) hadd.last hadd.new
    refine hadd.other x (h.ne_free he (List.mem_append_left _ hx)) ?_
    rintro rfl
    have hn := h.nodup
    rw [List.nodup_append'] at hn
    exact hn.2.2 hx (List.mem_singleton_self x)
  · refine List.nodup_append'.mpr ⟨h.nodup, List.nodup_singleton e, fun x hx hxe => ?_⟩
    exact h.ne_free he hx (List.mem_singleton.mp hxe)
  · simp only [List.length_append, List.length_singleton, h.length]

/-- One round uses exactly one node. -/
theorem NodeAdded.card_freeNodes {s s' : Fs} {j e : Fin 100} {b : Sector}
    (h : NodeAdded s s' j e b) (he : (s.afblNodelist e).used = false)
    (hj : (s.afblNodelist j).used = true) : (freeNodes s).card = (freeNodes s').card + 1 := by
  have hset : freeNodes s' = (freeNodes s).erase e := by
    ext x
    rw [Finset.mem_erase, mem_freeNodes, mem_freeNodes]
    by_cases hxe : x = e
    · subst hxe
      rw [h.new]
      simp
    · by_cases hxj : x = j
      · subst hxj
        rw [h.last]
        simp [hxe]
      · rw [h.other x hxe hxj]
        simp [hxe]
  have hpos : 0 < (freeNodes s).card := Finset.card_pos.mpr ⟨e, mem_freeNodes.mpr he⟩
  rw [hset, Finset.card_erase_of_mem (mem_freeNodes.mpr he)]
  omega

/-- What the loop has done when it ends, started on the chain `K` with nodes `M`: the
chain has grown by `E` and the nodes `N`, which were free before, hold the sectors `B`. -/
structure StagedTo (s s' : Fs) (c : Nat) (K : List Nat) (p : Option (Fin 100))
    (M : List (Fin 100)) (E P : List Nat) (l : Nat) (Q : List Nat) (N : List (Fin 100))
    (B : List Sector) : Prop where
  grown : Grown s.sdb s'.sdb c K E
  position : K ++ E = P ++ l :: Q
  rest : s' = { s with sdb := s'.sdb, afblNodelist := s'.afblNodelist }
  staged : Staged s'.afblNodelist p N B
  nodup : N.Nodup
  nodes : ∀ x ∈ N, x ∈ M ∨ (s.afblNodelist x).used = false
  old : ∀ x ∈ M, x ∈ N
  others : ∀ x, x ∉ N → s'.afblNodelist x = s.afblNodelist x
  short : N.length ≤ P.length + 1

/-- **The staging loop.** It stages all sectors when there are nodes for them; when
the nodes run out it stops with what it has staged so far. -/
theorem stageAll_ok {c : Nat} {p : Option (Fin 100)} : ∀ (bs : List Sector) {s : Fs}
    {P Q : List Nat} {l : Nat} {N : List (Fin 100)} {j : Fin 100} {B : List Sector},
    Staging s c p P l Q N j B →
    min bs.length ((freeNodes s).card + 1) ≤ Q.length + (freeClusters s.sdb).card →
    ∃ ok l' now s' E P' Q' N' B', stageAll bs s l (some j) false = .ok (ok, l', now, s') ∧
      StagedTo s s' c (P ++ l :: Q) p (N ++ [j]) E P' l' Q' N' B' ∧
      (ok = true → B' = B ++ bs ∧ N'.length = P'.length + 1 ∧ E.length = bs.length - Q.length) ∧
      (bs.length ≤ (freeNodes s).card → ok = true)
  | [], s, P, Q, l, N, j, B, h, _ => by
    have hlen : (N ++ [j]).length = P.length + 1 := by simp [h.length]
    exact ⟨true, l, some j, s, [], P, Q, N ++ [j], B, rfl,
      ⟨Grown.refl h.chain, by simp, rfl, h.staged, h.nodup, fun x hx => .inl hx, fun x hx => hx,
        fun x _ => rfl, hlen.le⟩, fun _ => ⟨by simp, hlen, by simp⟩, fun _ => rfl⟩
  | b :: bs, s, P, Q, l, N, j, B, h, hneed => by
    have hfree : Q = [] → 0 < (freeClusters s.sdb).card := by
      rintro rfl
      simp only [List.length_cons, List.length_nil] at hneed
      omega
    by_cases hfn : (freeNodes s).card = 0
    · -- no node is left: the chain steps on, the last node keeps its empty link
      obtain ⟨q, Q', E, d', hg, hQE, hElen, hnext⟩ := nextStage_chain j h.chain h.entry0 h.entry1 hfree
      have hpos : (P ++ l :: Q) ++ E = (P ++ [l]) ++ q :: Q' := by
        simp only [List.append_assoc, List.cons_append, List.nil_append, hQE]
      rw [getEmptyAFBLNode_none (s := { s with sdb := d' }) hfn] at hnext
      have hsame : ∀ x, (Fs.setNode { s with sdb := d' } j
          { s.afblNodelist j with next := none }).afblNodelist x = s.afblNodelist x := by
        intro x
        by_cases hx : x = j
        · subst hx
          simp only [Fs.setNode, Function.update_self]
          rw [← h.staged.last]
        · simp only [Fs.setNode, Function.update_of_ne hx]
      refine ⟨false, q, some j, _, E, P ++ [l], Q', N ++ [j], B, ?_, ⟨hg, hpos, rfl, ?_, h.nodup,
        fun x hx => .inl hx, fun x hx => hx, fun x _ => hsame x, ?_⟩,
        fun h => absurd h Bool.false_ne_true, ?_⟩
      · simp only [stageAll, Bool.false_eq_true, if_false, hnext, bind, Except.bind, Bool.not_false,
          if_true]
        rfl
      · exact h.staged.congr fun x _ => hsame x
      · simp only [List.length_append, List.length_singleton, h.length]
        omega
      · intro hle
        rw [hfn, List.length_cons] at hle
        omega
    · obtain ⟨q, Q', E, e, s3, hg, hQE, hElen, h3, he, hadd, hrest, hrun⟩ :=
        h.step hfree (Nat.pos_of_ne_zero hfn) b
      have hpos : (P ++ l :: Q) ++ E = (P ++ [l]) ++ q :: Q' := by
        simp only [List.append_assoc, List.cons_append, List.nil_append, hQE]
      have hcard := hadd.card_freeNodes he (h.staged.used j (by simp))
      have hlenQ : Q.length + E.length = Q'.length + 1 := by
        rw [← List.length_append, hQE, List.length_cons]
      have hcount := hg.count
      obtain ⟨ok, l', now, s', E', P', Q'', N', B', hrun', hto, hok, hall⟩ := stageAll_ok bs h3
        (by simp only [List.length_cons] at hneed; omega)
      have hg' := hto.grown
      rw [← hpos] at hg'
      refine ⟨ok, l', now, s', E ++ E', P', Q'', N', B', (hrun bs).trans hrun',
        ⟨hg.trans hg', ?_, ?_, hto.staged, hto.nodup, ?_, ?_, ?_, hto.short⟩, ?_, ?_⟩
      · rw [← List.append_assoc, hpos, hto.position]
      · rw [hto.rest, hrest]
      · intro x hx
        by_cases hxe : x = e
        · exact .inr (hxe ▸ he)
        · by_cases hxM : x ∈ N ++ [j]
          · exact .inl hxM
          · refine .inr ?_
            rcases hto.nodes x hx with hx | hx
            · rcases List.mem_append.mp hx with hx | hx
              · exact absurd hx hxM
              · exact absurd (List.mem_singleton.mp hx) hxe
            · rwa [hadd.other x hxe (fun hj => hxM (by simp [hj]))] at hx
      · exact fun x hx => hto.old x (List.mem_append_left _ hx)
      · intro x hx
        have hxe : x ≠ e := by
          rintro rfl
          exact hx (hto.old x (by simp))
        have hxj : x ≠ j := by
          rintro rfl
          exact hx (hto.old x (by simp))
        rw [hto.others x hx, hadd.other x hxe hxj]
      · intro h
        obtain ⟨hB, hN, hE'⟩ := hok h
        refine ⟨by rw [hB]; simp, hN, ?_⟩
        rw [List.length_append, List.length_cons]
        omega
      · intro hle
        simp only [List.length_cons] at hle
        exact hall (by omega)

/-- What is staged for the sectors `bs`: without any sector, the zeroed buffer of the first
node. -/
def stagedSectors (bs : List Sector) : List Sector := if bs = [] then [Bytes.zero 512] else bs

/-- The whole loop, from the node `get_empty_AFBLNode` has just provided. Without any
sector that node stays as it is, with a zeroed buffer. -/
theorem stageAll_first {c l : Nat} {j : Fin 100} {Q : List Nat} (bs : List Sector) {s : Fs}
    (h : Staging s c (some j) [] l Q [] j [Bytes.zero 512])
    (hneed : min (bs.length - 1) ((freeNodes s).card + 1) ≤ Q.length + (freeClusters s.sdb).card) :
    ∃ ok l' now s' E P' Q' N' B', stageAll bs s l (some j) true = .ok (ok, l', now, s') ∧
      StagedTo s s' c (l :: Q) (some j) [j] E P' l' Q' N' B' ∧
      (ok = true → B' = stagedSectors bs ∧ N'.length = P'.length + 1 ∧
        P'.length = bs.length - 1 ∧ E.length = bs.length - 1 - Q.length) ∧
      (bs.length ≤ (freeNodes s).card + 1 → ok = true) := by
  cases bs with
  | nil =>
    exact ⟨true, l, some j, s, [], [], Q, [j], [Bytes.zero 512], rfl,
      ⟨Grown.refl h.chain, by simp, rfl, h.staged, h.nodup, fun x hx => .inl hx, fun x hx => hx,
        fun x _ => rfl, le_refl _⟩, fun _ => ⟨rfl, rfl, rfl, by simp⟩,
        fun _ => rfl⟩
  | cons b bs =>
    have hj := h.staged.last (N := [])
    generalize hs1 : s.setNode j { s.afblNodelist j with next := none, buff := b } = s1
    have hs1j : s1.afblNodelist j = { buff := b, next := none, used := true } := by
      rw [← hs1]
      simp only [Fs.setNode, Function.update_self]
      rw [h.staged.used j (by simp)]
    have hs1n : ∀ x, x ≠ j → s1.afblNodelist x = s.afblNodelist x := by
      intro x hx
      rw [← hs1]
      simp only [Fs.setNode, Function.update_of_ne hx]
    have hrest1 : s1 = { s with afblNodelist := s1.afblNodelist } := by
      rw [← hs1]
      rfl
    have hsdb : s1.sdb = s.sdb := by rw [hrest1]
    have hfree : freeNodes s1 = freeNodes s := by
      ext x
      rw [mem_freeNodes, mem_freeNodes]
      by_cases hx : x = j
      · subst hx
        rw [hs1j, h.staged.used x (by simp)]
      · rw [hs1n x hx]
    have h1 : Staging s1 c (some j) [] l Q [] j [b] := by
      refine ⟨hsdb ▸ h.entry0, hsdb ▸ h.entry1, hsdb ▸ h.chain, ?_, h.nodup, rfl⟩
      exact Staged.setLast (N := []) (B := []) h.staged h.nodup
        (fun x hx => absurd hx List.not_mem_nil) hs1j
    obtain ⟨ok, l', now, s', E, P', Q', N', B', hrun, hto, hok, hall⟩ := stageAll_ok bs h1
      (by rw [hfree, hsdb]; simpa using hneed)
    refine ⟨ok, l', now, s', E, P', Q', N', B', ?_, ?_, ?_, ?_⟩
    · rw [← hrun, ← hs1]
      rfl
    · have hg := hto.grown
      rw [hsdb] at hg
      refine ⟨hg, hto.position, ?_, hto.staged, hto.nodup, ?_, hto.old, ?_, hto.short⟩
      · rw [hto.rest, hrest1]
      · intro x hx
        rcases hto.nodes x hx with hx | hx
        · exact .inl hx
        · by_cases hxj : x = j
          · exact .inl (by simp [hxj])
          · exact .inr (by rwa [hs1n x hxj] at hx)
      · intro x hx
        have hxj : x ≠ j := by
          rintro rfl
          exact hx (hto.old x (by simp))
        rw [hto.others x hx, hs1n x hxj]
    · intro h
      obtain ⟨hB, hN, hE⟩ := hok h
      have hlen := hto.staged.length_eq
      rw [hN, hB, List.singleton_append, List.length_cons] at hlen
      exact ⟨by rw [hB]; rfl, hN, by simpa using hlen, by simpa using hE⟩
    · intro hle
      rw [hfree] at hall
      exact hall (by simpa using hle)

/-! ## Both writers are this loop -/

theorem linkNext_sda {s : Fs} {clusID newClusID : Nat} {now : Option (Fin 100)}
    {r : Bool × Nat × Option (Fin 100) × Fs} (h : linkNext s clusID newClusID now = .ok r) :
    r.2.2.2.sda = s.sda := by
  have hget : (getEmptyAFBLNode s).2.sda = s.sda := by
    unfold getEmptyAFBLNode
    cases emptyNode s <;> rfl
  have hneg : ¬ ((newClusID : Int) = -1) := by omega
  unfold linkNext at h
  rw [if_neg hneg] at h
  cases now with
  | none => cases h
  | some j =>
    revert h hget
    cases getEmptyAFBLNode s with
    | mk next s1 =>
      intro hg h
      cases next with
      | none =>
        cases h
        exact hg
      | some e =>
        cases h
        exact hg

theorem nextStage_sda {s : Fs} {clusID : Nat} {now : Option (Fin 100)}
    {r : Bool × Nat × Option (Fin 100) × Fs} (h : nextStage s clusID now = .ok r) :
    r.2.2.2.sda = s.sda := by
  simp only [nextStage] at h
  split at h
  · obtain ⟨v, -, h⟩ := bind_eq_ok.mp h
    have := linkNext_sda h
    exact this
  · exact linkNext_sda h

/-- The sectors `write_file_from_sda` reads, from number `300 + i` on. -/
def sdaSectors (s : Fs) (i n : Nat) : List Sector := (List.range' i n).map fun k => s.sda (300 + k)

theorem copyFromSda_eq : ∀ (n i : Nat) (s : Fs) (clusID : Nat) (now : Option (Fin 100)),
    copyFromSda n i s clusID now =
      (stageAll (sdaSectors s i n) s clusID now (i == 0) >>= fun r => .ok (r.1, r.2.2.2))
  | 0, _, _, _, _ => rfl
  | n + 1, i, s, clusID, now => by
    have hrest : ∀ (s1 : Fs), s1.sda = s.sda → ∀ (c : Nat) (now : Option (Fin 100)),
        (initAFBLNode s1 now (s1.sda (300 + i)) none >>= fun s =>
          copyFromSda n (i + 1) s c now) =
        ((initAFBLNode s1 now (s.sda (300 + i)) none >>= fun s2 =>
          stageAll (sdaSectors s (i + 1) n) s2 c now false) >>= fun r => .ok (r.1, r.2.2.2)) := by
      intro s1 h1 c now
      rw [h1]
      cases now with
      | none => rfl
      | some j =>
        show copyFromSda n (i + 1) _ c (some j) = _
        rw [copyFromSda_eq n (i + 1)]
        show (stageAll ((List.range' (i + 1) n).map fun k => s1.sda (300 + k)) _ c _ _ >>= _) = _
        rw [h1]
        rfl
    rw [copyFromSda, sdaSectors, List.range'_succ, List.map_cons, stageAll]
    by_cases hi : i = 0
    · subst hi
      exact hrest s rfl clusID now
    · have h1 : i ≥ 1 := by omega
      have h0 : ¬ (i == 0) = true := by simpa using hi
      rw [if_pos h1, if_neg h0]
      cases hns : nextStage s clusID now with
      | error e => rfl
      | ok r =>
        obtain ⟨ok, c, now', s1⟩ := r
        cases ok with
        | false => rfl
        | true => exact hrest s1 (nextStage_sda hns) c now'

theorem stageAll_bind (b : Sector) (bs : List Sector) (s : Fs) (c : Nat) (now : Option (Fin 100))
    (first : Bool) : stageAll (b :: bs) s c now first =
      (stageAll [b] s c now first >>= fun r =>
        if r.1 then stageAll bs r.2.2.2 r.2.1 r.2.2.1 false else .ok r) := by
  have hrest : ∀ (s : Fs) (c : Nat) (now : Option (Fin 100)),
      (initAFBLNode s now b none >>= fun s => stageAll bs s c now false) =
        ((initAFBLNode s now b none >>= fun s => stageAll [] s c now false) >>= fun r =>
          if r.1 then stageAll bs r.2.2.2 r.2.1 r.2.2.1 false else .ok r) := by
    intro s c now
    cases now <;> rfl
  rw [stageAll, stageAll]
  cases first with
  | true => exact hrest s c now
  | false =>
    simp only [Bool.false_eq_true, if_false]
    cases nextStage s c now with
    | error e => rfl
    | ok r =>
      obtain ⟨ok, c', now', s'⟩ := r
      cases ok with
      | false => rfl
      | true => exact hrest s' c' now'

/-- `stageBuff` is one round of the loop. -/
theorem stageBuff_eq (s : Fs) (w : WriteLocals) :
    stageBuff s w = (stageAll [w.buff] s w.clusID w.now (w.cnt == 0) >>= fun r =>
      .ok (r.1, { w with cnt := w.cnt + 1, clusID := r.2.1, now := r.2.2.1 }, r.2.2.2)) := by
  rw [stageAll]
  by_cases h0 : w.cnt = 0
  · have h1 : ¬ w.cnt + 1 > 1 := by omega
    have hb : (w.cnt == 0) = true := by simpa using h0
    simp only [stageBuff, h1, if_false, hb, if_true]
    cases w.now <;> rfl
  · have h1 : w.cnt + 1 > 1 := by omega
    have hb : (w.cnt == 0) = false := by simpa using h0
    simp only [stageBuff, h1, if_true, hb, Bool.false_eq_true, if_false]
    cases nextStage s w.clusID w.now with
    | error e => rfl
    | ok r =>
      obtain ⟨ok, c', now', s'⟩ := r
      cases ok with
      | false => rfl
      | true => cases now' <;> rfl

/-- The sectors `write_file` makes of the typed characters, when the buffer already
holds `id` of them. The last one is filled up with zeros. -/
def sectorsFrom : Sector → Nat → List UInt8 → List Sector
  | b, id, [] => if id > 0 then [Bytes.ofFn fun i => if id ≤ i then 0x00 else b.get i] else []
  | b, id, c :: cs =>
    if id = bytePerSec - 1 then b.set id c :: sectorsFrom (b.set id c) 0 cs
    else sectorsFrom (b.set id c) (id + 1) cs

/-- As many sectors as the text needs. -/
theorem length_sectorsFrom : ∀ (cs : List UInt8) (b : Sector) (id : Nat), id < 512 →
    (sectorsFrom b id cs).length = (id + cs.length + 511) / 512
  | [], b, id, h => by
    rw [sectorsFrom]
    by_cases h0 : id > 0
    · rw [if_pos h0]
      simp only [List.length_cons, List.length_nil]
      omega
    · rw [if_neg h0]
      simp only [List.length_nil]
      omega
  | c :: cs, b, id, h => by
    rw [sectorsFrom]
    by_cases h1 : id = bytePerSec - 1
    · rw [if_pos h1, List.length_cons, length_sectorsFrom cs _ 0 (by omega), List.length_cons]
      unfold bytePerSec at h1
      omega
    · rw [if_neg h1]
      unfold bytePerSec at h1
      rw [length_sectorsFrom cs _ (id + 1) (by omega), List.length_cons]
      congr 1
      omega

/-- The loop of `write_file` and its last, partial sector. -/
def writeStaged (content : List UInt8) (s : Fs) (w : WriteLocals) :
    Except Fault (Bool × WriteLocals × Fs) :=
  writeChars content s w >>= fun r =>
    if r.1 then
      if r.2.1.id > 0 then
        stageBuff r.2.2 { r.2.1 with
          buff := Bytes.ofFn fun i => if r.2.1.id ≤ i then 0x00 else r.2.1.buff.get i }
      else .ok r
    else .ok r

theorem set_outside (b : Sector) {i : Nat} (v : UInt8) (h : 512 ≤ i) : b.set i v = b := by
  refine Bytes.ext_get fun k hk => ?_
  rw [Bytes.get_set_ne _ _ (by omega)]

/-- One character of `write_file`. -/
theorem writeChars_cons (c : UInt8) (cs : List UInt8) (s : Fs) (w : WriteLocals) (h : w.id < 512) :
    writeChars (c :: cs) s w =
      if w.id = bytePerSec - 1 then
        stageBuff s { w with buff := w.buff.set w.id c } >>= fun r =>
          if r.1 then writeChars cs r.2.2 { r.2.1 with id := 0, size := r.2.1.size + 1 } else .ok r
      else writeChars cs s
        { w with buff := w.buff.set w.id c, id := w.id + 1, size := w.size + 1 } := by
  have hlt : w.id < bytePerSec := h
  rw [writeChars, if_pos hlt]
  by_cases h1 : w.id = bytePerSec - 1
  · have hset : (w.buff.set w.id c).set (w.id + 1) 0 = w.buff.set w.id c :=
      set_outside _ _ (by unfold bytePerSec at h1; omega)
    have hmod : (w.id + 1) % bytePerSec = 0 := by
      unfold bytePerSec at *
      omega
    have hid := stageBuff_eq s { w with buff := w.buff.set w.id c }
    rw [if_pos h1, if_pos h1]
    simp only [hset]
    rw [hid]
    cases stageAll [w.buff.set w.id c] s w.clusID w.now (w.cnt == 0) with
    | error e => rfl
    | ok r =>
      obtain ⟨ok, c', now', s'⟩ := r
      cases ok with
      | false => rfl
      | true =>
        simp only [bind, Except.bind, hmod]
        rfl
  · have hmod : (w.id + 1) % bytePerSec = w.id + 1 := by
      unfold bytePerSec at *
      omega
    rw [if_neg h1, if_neg h1]
    simp only [bind, Except.bind, pure, Except.pure, hmod]
    rfl

/-- **`write_file` is the staging loop** over the sectors of the text. -/
theorem writeStaged_eq : ∀ (content : List UInt8) (s : Fs) (w : WriteLocals), w.id < 512 →
    (writeStaged content s w >>= fun r => .ok (r.1, r.2.1.clusID, r.2.1.now, r.2.2)) =
      stageAll (sectorsFrom w.buff w.id content) s w.clusID w.now (w.cnt == 0)
  | [], s, w, h => by
    rw [writeStaged, sectorsFrom]
    show ((if w.id > 0 then _ else _) >>= _) = _
    by_cases h0 : w.id > 0
    · rw [if_pos h0, if_pos h0, stageBuff_eq]
      cases stageAll [_] s w.clusID w.now (w.cnt == 0) with
      | error e => rfl
      | ok r => rfl
    · rw [if_neg h0, if_neg h0]
      rfl
  | c :: cs, s, w, h => by
    rw [writeStaged, writeChars_cons c cs s w h, sectorsFrom]
    by_cases h1 : w.id = bytePerSec - 1
    · rw [if_pos h1, if_pos h1, stageAll_bind, stageBuff_eq]
      cases stageAll [w.buff.set w.id c] s w.clusID w.now (w.cnt == 0) with
      | error e => rfl
      | ok r =>
        obtain ⟨ok, c', now', s'⟩ := r
        cases ok with
        | false => rfl
        | true =>
          exact writeStaged_eq cs s' ⟨w.size + 1, 0, w.cnt + 1, w.buff.set w.id c, now', c'⟩
            (by decide : 0 < 512)
    · rw [if_neg h1, if_neg h1]
      exact writeStaged_eq cs s
        ⟨w.size + 1, w.id + 1, w.cnt, w.buff.set w.id c, w.now, w.clusID⟩ (by
          unfold bytePerSec at h1
          show w.id + 1 < 512
          omega)

/-- The size `write_file` counts. -/
theorem writeStaged_size : ∀ {content : List UInt8} {s : Fs} {w : WriteLocals}
    {r : Bool × WriteLocals × Fs}, w.id < 512 → writeStaged content s w = .ok r → r.1 = true →
    r.2.1.size = w.size + content.length
  | [], s, w, r, _, hr, _ => by
    rw [writeStaged] at hr
    replace hr : (if w.id > 0 then _ else _) = _ := hr
    by_cases h0 : w.id > 0
    · rw [if_pos h0, stageBuff_eq] at hr
      obtain ⟨v, -, hv⟩ := bind_eq_ok.mp hr
      cases hv
      rfl
    · rw [if_neg h0] at hr
      cases hr
      rfl
  | c :: cs, s, w, r, h, hr, hok => by
    rw [writeStaged, writeChars_cons c cs s w h] at hr
    by_cases h1 : w.id = bytePerSec - 1
    · rw [if_pos h1, stageBuff_eq] at hr
      revert hr
      cases stageAll [w.buff.set w.id c] s w.clusID w.now (w.cnt == 0) with
      | error e =>
        intro hr
        cases hr
      | ok v =>
        obtain ⟨ok, c', now', s'⟩ := v
        intro hr
        cases ok with
        | false =>
          cases hr
          cases hok
        | true =>
          have := writeStaged_size (s := s')
            (w := ⟨w.size + 1, 0, w.cnt + 1, w.buff.set w.id c, now', c'⟩) (by decide : 0 < 512) hr
              hok
          rw [this, List.length_cons]
          show w.size + 1 + cs.length = _
          omega
    · rw [if_neg h1] at hr
      have := writeStaged_size (s := s)
        (w := ⟨w.size + 1, w.id + 1, w.cnt, w.buff.set w.id c, w.now, w.clusID⟩) (by
          unfold bytePerSec at h1
          show w.id + 1 < 512
          omega) hr hok
      rw [this, List.length_cons]
      show w.size + 1 + cs.length = _
      omega

/-! ## Flushing -/

/-- The loop of `active_file_close`: the staged sectors go to the sectors of the
chain, in order, and the nodes are free again. -/
theorem flushNodes_ok {N : List (Fin 100)} {B : List Sector} {n : Nat} {s : Fs} {p : Option (Fin 100)}
    {c : Nat} {K : List Nat} (hst : Staged s.afblNodelist p N B) (hnd : N.Nodup)
    (hv : Chain.Visits (getFatNextCluster s.sdb) IsEnd c K) (hr : ∀ k ∈ K, 2 ≤ k ∧ k ≤ 2848)
    (hlen : N.length ≤ K.length) (hn : N.length < n) :
    ∃ s', flushNodes n s c p = .ok s' ∧ Touches s.sdb s'.sdb ∅ (sectorsOf K) ∧
      (∀ x ∈ K.zip B, s'.sdb (x.1 + 31) = x.2) ∧
      s' = { s with sdb := s'.sdb, afblNodelist := s'.afblNodelist } ∧
      (∀ j ∈ N, (s'.afblNodelist j).used = false) ∧
      ∀ j, j ∉ N → s'.afblNodelist j = s.afblNodelist j := by
  induction N generalizing B n s p c K with
  | nil =>
    obtain ⟨n, rfl⟩ : ∃ m, n = m + 1 := ⟨n - 1, by rw [List.length_nil] at hn; omega⟩
    cases B with
    | cons b B => exact hst.elim
    | nil =>
      rw [show p = none from hst]
      refine ⟨s, rfl, Touches.refl .., ?_, rfl, fun j hj => absurd hj List.not_mem_nil,
        fun _ _ => rfl⟩
      intro x hx
      rw [List.zip_nil_right] at hx
      exact absurd hx List.not_mem_nil
  | cons j N ih =>
    obtain ⟨n, rfl⟩ : ∃ m, n = m + 1 := ⟨n - 1, by omega⟩
    obtain ⟨b, B, rfl⟩ : ∃ b B', B = b :: B' := by
      cases B with
      | nil => exact hst.elim
      | cons b B => exact ⟨b, B, rfl⟩
    obtain ⟨k, K, rfl⟩ : ∃ k K', K = k :: K' := by
      cases K with
      | nil => exact absurd hlen (Nat.not_succ_le_zero _)
      | cons k K => exact ⟨k, K, rfl⟩
    have hKnd := hv.nodup
    obtain ⟨rfl, hu, rfl, hrest⟩ := hst
    obtain ⟨rfl, hs, hvrest⟩ := hv
    obtain ⟨hjN, hNnd⟩ := List.nodup_cons.mp hnd
    obtain ⟨hcK, -⟩ := List.nodup_cons.mp hKnd
    obtain ⟨h2, hle⟩ := hr c (List.mem_cons_self ..)
    generalize hs1 : Fs.setNode
      { s with sdb := Function.update s.sdb (c + 31) (s.afblNodelist j).buff } j
      { s.afblNodelist j with used := false } = s1
    have hs1sdb : s1.sdb = Function.update s.sdb (c + 31) (s.afblNodelist j).buff := by
      rw [← hs1]
      rfl
    have hs1j : (s1.afblNodelist j).used = false := by
      rw [← hs1]
      simp [Fs.setNode]
    have hs1n : ∀ x, x ≠ j → s1.afblNodelist x = s.afblNodelist x := by
      intro x hx
      rw [← hs1]
      simp only [Fs.setNode, Function.update_of_ne hx]
    have hfat : ∀ x, x < fatEntries → getFatNextCluster s1.sdb x = getFatNextCluster s.sdb x := by
      intro x hx
      rw [hs1sdb, getFat_update _ _ (by omega) hx]
    have hr' : ∀ x ∈ K, 2 ≤ x ∧ x ≤ 2848 := fun x hx => hr x (List.mem_cons_of_mem _ hx)
    have hv' : Chain.Visits (getFatNextCluster s1.sdb) IsEnd (getFatNextCluster s1.sdb c) K := by
      rw [hfat c (by unfold fatEntries; omega)]
      refine hvrest.congr fun x hx => hfat x ?_
      have := (hr' x hx).2
      unfold fatEntries
      omega
    obtain ⟨s', hrun, ht, hzip, hrest', hfree, hother⟩ := ih (n := n) (s := s1)
      (hrest.congr fun x hx => hs1n x fun he => hjN (he ▸ hx)) hNnd hv' hr'
      (Nat.le_of_succ_le_succ hlen) (Nat.lt_of_succ_lt_succ hn)
    have hsec : c + 31 ∈ sectorsOf (c :: K) := ⟨c, List.mem_cons_self .., rfl⟩
    refine ⟨s', ?_, ?_, ?_, ?_, ?_, ?_⟩
    · rw [flushNodes, u16_sec hle, writeSector_ok _ _ (sec_le hle)]
      simp only [bind, Except.bind]
      rw [hs1, ← hs1sdb]
      exact hrun
    · rw [hs1sdb] at ht
      refine (Touches.update _ _ (by omega) hsec).trans (ht.mono (le_refl _) ?_)
      rintro x ⟨y, hy, rfl⟩
      exact ⟨y, List.mem_cons_of_mem _ hy, rfl⟩
    · intro x hx
      rw [List.zip_cons_cons] at hx
      rcases List.mem_cons.mp hx with rfl | hx
      · -- the later sectors are other ones
        have hkeep : s'.sdb (c + 31) = s1.sdb (c + 31) := by
          refine ht.data _ (.inr (by omega)) ?_
          rintro ⟨y, hy, hcy⟩
          exact hcK ((by omega : c = y) ▸ hy)
        show s'.sdb (c + 31) = _
        rw [hkeep, hs1sdb, Function.update_self]
      · exact hzip x hx
    · rw [hrest', ← hs1]
      rfl
    · intro x hx
      rcases List.mem_cons.mp hx with rfl | hx
      · rw [hother x hjN]
        exact hs1j
      · exact hfree x hx
    · intro x hx
      rw [hother x (fun hm => hx (List.mem_cons_of_mem _ hm)),
        hs1n x (fun he => hx (he ▸ List.mem_cons_self ..))]

end GwOS
