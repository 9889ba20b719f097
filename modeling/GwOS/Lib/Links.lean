import GwOS.Lib.Chain
import Mathlib.Data.List.Chain

/-!
# Doubly linked lists

Cells of any type with a successor and a predecessor each. A list stands between two sentinels, and
its sequence is what lies between them.

- `Path`: cells of which each is linked to the next in both directions. A cell is spliced in or out
  by writing two links in each direction (`Path.insert`, `Path.remove`).
- `IsList`: the sentinels, the cells between them, no cell twice, none of them null.
- `Family`: disjoint lists. What happens to one of them leaves the others alone.
-/

namespace Links

variable {α ι : Type*} {next prev next' prev' : α → α} {null h t : α}

/-- `b` follows `a`, and `a` precedes `b`. -/
def Linked (next prev : α → α) (a b : α) : Prop := next a = b ∧ prev b = a

/-- Cells that are linked, each to the next. -/
def Path (next prev : α → α) (cells : List α) : Prop := cells.IsChain (Linked next prev)

/-! ## Paths -/

namespace Path

variable {A B cells : List α} {p q n : α}

theorem split : Path next prev (A ++ p :: q :: B) ↔
    Path next prev (A ++ [p]) ∧ Linked next prev p q ∧ Path next prev (q :: B) :=
  List.isChain_append_cons_cons

/-- A path depends on the successors of all cells but the last, and on the predecessors of all but
the first. -/
theorem congr (hpath : Path next prev cells) (hnext : ∀ a ∈ cells.dropLast, next' a = next a)
    (hprev : ∀ b ∈ cells.tail, prev' b = prev b) : Path next' prev' cells := by
  induction cells with
  | nil => exact List.isChain_nil
  | cons a cells ih =>
    cases cells with
    | nil => exact List.isChain_singleton a
    | cons b cells =>
      obtain ⟨⟨hab, hba⟩, hrest⟩ := List.isChain_cons_cons.mp hpath
      refine List.isChain_cons_cons.mpr ⟨⟨?_, ?_⟩, ih hrest ?_ ?_⟩
      · rw [hnext a (by simp), hab]
      · rw [hprev b (by simp), hba]
      · intro c hc
        refine hnext c ?_
        rw [List.dropLast_cons_of_ne_nil (List.cons_ne_nil _ _)]
        exact List.mem_cons_of_mem _ hc
      · intro c hc
        exact hprev c (List.mem_of_mem_tail hc)

/-- Two neighbours occur nowhere else. -/
theorem not_mem_of_nodup (hnodup : (A ++ p :: q :: B).Nodup) :
    p ∉ A ∧ q ∉ A ++ [p] ∧ p ∉ q :: B ∧ q ∉ B := by
  obtain ⟨-, htail, hdisj⟩ := List.nodup_append'.mp hnodup
  obtain ⟨hp, hqB⟩ := List.nodup_cons.mp htail
  refine ⟨fun hm => hdisj hm List.mem_cons_self, ?_, hp, (List.nodup_cons.mp hqB).1⟩
  rw [List.mem_append, List.mem_singleton, not_or]
  exact ⟨fun hm => hdisj hm (by simp), ne_of_mem_of_not_mem List.mem_cons_self hp⟩

variable [DecidableEq α]

/-- A new cell between two neighbours. -/
theorem insert (hpath : Path next prev (A ++ p :: q :: B)) (hnodup : (A ++ p :: q :: B).Nodup)
    (hn : n ∉ A ++ p :: q :: B) :
    Path (Function.update (Function.update next p n) n q)
      (Function.update (Function.update prev n p) q n) (A ++ p :: n :: q :: B) := by
  obtain ⟨hleft, -, hright⟩ := split.mp hpath
  simp only [List.mem_append, List.mem_cons, not_or] at hn
  obtain ⟨hnA, hnp, hnq, hnB⟩ := hn
  obtain ⟨hpA, hqp, hpnot, hqnot⟩ := not_mem_of_nodup hnodup
  have hnp' : n ∉ A ++ [p] := by
    rw [List.mem_append, List.mem_singleton, not_or]
    exact ⟨hnA, hnp⟩
  have hnqB : n ∉ q :: B := by
    rw [List.mem_cons, not_or]
    exact ⟨hnq, hnB⟩
  refine split.mpr ⟨?_, ⟨?_, ?_⟩, List.isChain_cons_cons.mpr ⟨⟨?_, ?_⟩, ?_⟩⟩
  · refine hleft.congr (fun a ha => ?_) fun b hb => ?_
    · rw [List.dropLast_concat] at ha
      rw [Function.update_of_ne (ne_of_mem_of_not_mem ha hnA),
        Function.update_of_ne (ne_of_mem_of_not_mem ha hpA)]
    · have hbA := List.mem_of_mem_tail hb
      rw [Function.update_of_ne (ne_of_mem_of_not_mem hbA hqp),
        Function.update_of_ne (ne_of_mem_of_not_mem hbA hnp')]
  · rw [Function.update_of_ne (Ne.symm hnp), Function.update_self]
  · rw [Function.update_of_ne hnq, Function.update_self]
  · rw [Function.update_self]
  · rw [Function.update_self]
  · refine hright.congr (fun a ha => ?_) fun b hb => ?_
    · have haB : a ∈ q :: B := List.dropLast_subset _ ha
      rw [Function.update_of_ne (ne_of_mem_of_not_mem haB hnqB),
        Function.update_of_ne (ne_of_mem_of_not_mem haB hpnot)]
    · rw [List.tail_cons] at hb
      rw [Function.update_of_ne (ne_of_mem_of_not_mem hb hqnot),
        Function.update_of_ne (ne_of_mem_of_not_mem hb hnB)]

/-- A cell is taken out, and its neighbours become neighbours. -/
theorem remove (hpath : Path next prev (A ++ p :: n :: q :: B))
    (hnodup : (A ++ p :: n :: q :: B).Nodup) :
    Path (Function.update next p q) (Function.update prev q p) (A ++ p :: q :: B) := by
  obtain ⟨hleft, -, hrest⟩ := split.mp hpath
  have hright : Path next prev (q :: B) := (List.isChain_cons_cons.mp hrest).2
  have hsub : (A ++ p :: q :: B).Sublist (A ++ p :: n :: q :: B) :=
    (List.Sublist.refl A).append (((List.Sublist.refl _).cons n).cons_cons p)
  obtain ⟨hpA, hqp, hpqB, hqnot⟩ := not_mem_of_nodup (hsub.nodup hnodup)
  refine split.mpr ⟨?_, ⟨Function.update_self .., Function.update_self ..⟩, ?_⟩
  · refine hleft.congr (fun a ha => ?_) fun b hb => ?_
    · rw [List.dropLast_concat] at ha
      rw [Function.update_of_ne (ne_of_mem_of_not_mem ha hpA)]
    · rw [Function.update_of_ne (ne_of_mem_of_not_mem (List.mem_of_mem_tail hb) hqp)]
  · refine hright.congr (fun a ha => ?_) fun b hb => ?_
    · rw [Function.update_of_ne (ne_of_mem_of_not_mem (List.dropLast_subset _ ha) hpqB)]
    · rw [List.tail_cons] at hb
      rw [Function.update_of_ne (ne_of_mem_of_not_mem hb hqnot)]

end Path

/-! ## Lists -/

/-- The cells of a list, with its sentinels. -/
def cells (h t : α) (xs : List α) : List α := h :: (xs ++ [t])

/-- The list between the sentinels `h` and `t` has the sequence `xs`. -/
structure IsList (next prev : α → α) (null h t : α) (xs : List α) : Prop where
  nodup : (cells h t xs).Nodup
  nonnull : null ∉ cells h t xs
  path : Path next prev (cells h t xs)
  first : prev h = null
  last : next t = null

theorem cells_split (h t : α) (A B : List α) :
    ∃ A' p q B', h :: A = A' ++ [p] ∧ B ++ [t] = q :: B' ∧
      ∀ C, cells h t (A ++ C ++ B) = A' ++ p :: (C ++ q :: B') := by
  obtain ⟨A', p, hA⟩ : ∃ A' p, h :: A = A' ++ [p] :=
    ⟨_, _, (List.dropLast_append_getLast (List.cons_ne_nil h A)).symm⟩
  obtain ⟨q, B', hB⟩ : ∃ q B', B ++ [t] = q :: B' := by
    cases B with
    | nil => exact ⟨t, [], rfl⟩
    | cons b B => exact ⟨b, B ++ [t], rfl⟩
  refine ⟨A', p, q, B', hA, hB, fun C => ?_⟩
  have hwhole : cells h t (A ++ C ++ B) = (h :: A) ++ (C ++ (B ++ [t])) := by
    simp [cells]
  rw [hwhole, hA, hB, List.append_assoc, List.singleton_append]

/-- The ends of a list are not the inner neighbours of a place in it. -/
theorem ends_ne {A A' B B' : List α} {p q : α} (hA : h :: A = A' ++ [p]) (hB : B ++ [t] = q :: B')
    (hnodup : (A' ++ p :: q :: B').Nodup) : h ≠ q ∧ t ≠ p := by
  obtain ⟨-, hq, hp, -⟩ := Path.not_mem_of_nodup hnodup
  constructor
  · exact ne_of_mem_of_not_mem (hA ▸ List.mem_cons_self) hq
  · exact ne_of_mem_of_not_mem (hB ▸ List.mem_append_right _ (List.mem_singleton_self t)) hp

namespace IsList

variable {xs A B : List α} {n q : α}

/-- A list depends on the links of its own cells. -/
theorem congr (hl : IsList next prev null h t xs) (hnext : ∀ a ∈ cells h t xs, next' a = next a)
    (hprev : ∀ a ∈ cells h t xs, prev' a = prev a) : IsList next' prev' null h t xs := by
  refine ⟨hl.nodup, hl.nonnull, hl.path.congr (fun a ha => hnext a (List.dropLast_subset _ ha))
    (fun b hb => hprev b (List.mem_of_mem_tail hb)), ?_, ?_⟩
  · rw [hprev h (by simp [cells]), hl.first]
  · rw [hnext t (by simp [cells]), hl.last]

/-- The predecessor of the cell that follows `A` is a cell of the list. -/
theorem prev_mem (hl : IsList next prev null h t (A ++ B)) (hq : (B ++ [t]).head? = some q) :
    prev q ∈ cells h t (A ++ B) := by
  obtain ⟨A', p, q', B', -, hB, hcells⟩ := cells_split h t A B
  obtain rfl : q = q' := by
    rw [hB] at hq
    exact (Option.some.inj hq).symm
  have hold : cells h t (A ++ B) = A' ++ p :: q :: B' := by
    simpa using hcells []
  have hpath := hl.path
  rw [hold] at hpath ⊢
  rw [(Path.split.mp hpath).2.1.2]
  simp

/-- The first cell, or the sentinel behind an empty list, follows the sentinel in front. -/
theorem next_head (hl : IsList next prev null h t xs) : (xs ++ [t]).head? = some (next h) := by
  have hpath := hl.path
  cases xs with
  | nil => exact congrArg some (List.isChain_cons_cons.mp hpath).1.1.symm
  | cons x xs => exact congrArg some (List.isChain_cons_cons.mp hpath).1.1.symm

/-- A list ends at the first cell that has the sentinel behind it as successor: nothing before is
that sentinel. -/
theorem tail_not_mem (hl : IsList next prev null h t xs) : t ∉ xs := by
  intro hm
  have hnodup := (List.nodup_cons.mp hl.nodup).2
  exact (List.nodup_append'.mp hnodup).2.2 hm (List.mem_singleton_self t)

theorem null_not_mem (hl : IsList next prev null h t xs) : null ∉ xs := fun hm =>
  hl.nonnull (List.mem_cons_of_mem _ (List.mem_append_left _ hm))

/-- Both neighbours of a cell of the list are cells of what is left. -/
theorem neighbours_mem (hl : IsList next prev null h t (A ++ n :: B)) :
    prev n ∈ cells h t (A ++ B) ∧ next n ∈ cells h t (A ++ B) := by
  obtain ⟨A', p, q, B', hA, hB, hcells⟩ := cells_split h t A B
  have hold : cells h t (A ++ n :: B) = A' ++ p :: n :: q :: B' := by
    simpa using hcells [n]
  have hnew : cells h t (A ++ B) = A' ++ p :: q :: B' := by
    simpa using hcells []
  have hpath := hl.path
  rw [hold] at hpath
  obtain ⟨-, ⟨-, hpn⟩, hrest⟩ := Path.split.mp hpath
  obtain ⟨⟨hnq, -⟩, -⟩ := List.isChain_cons_cons.mp hrest
  rw [hpn, hnq, hnew]
  simp

variable [DecidableEq α]

/-- A new cell in front of `q`, which is a cell of the list or the sentinel behind it. -/
theorem insert (hl : IsList next prev null h t (A ++ B)) (hq : (B ++ [t]).head? = some q)
    (hn : n ∉ cells h t (A ++ B)) (hnull : n ≠ null) :
    IsList (Function.update (Function.update next (prev q) n) n q)
      (Function.update (Function.update prev n (prev q)) q n) null h t (A ++ n :: B) := by
  obtain ⟨A', p, q', B', hA, hB, hcells⟩ := cells_split h t A B
  obtain rfl : q = q' := by
    rw [hB] at hq
    exact (Option.some.inj hq).symm
  have hold : cells h t (A ++ B) = A' ++ p :: q :: B' := by
    simpa using hcells []
  have hnew : cells h t (A ++ n :: B) = A' ++ p :: n :: q :: B' := by
    simpa using hcells [n]
  have hpath := hl.path
  have hnodup := hl.nodup
  have hnonnull := hl.nonnull
  rw [hold] at hpath hnodup hnonnull hn
  have hpq : prev q = p := (Path.split.mp hpath).2.1.2
  rw [hpq]
  have hperm : (A' ++ p :: n :: q :: B').Perm (n :: (A' ++ p :: q :: B')) := by
    rw [← List.singleton_append (l := n :: q :: B'), ← List.append_assoc]
    refine List.perm_middle.trans ?_
    rw [List.append_assoc, List.singleton_append]
  -- the ends are not touched: the first cell has no new predecessor, the last no new successor
  obtain ⟨hhq, htp⟩ := ends_ne hA hB hnodup
  have hnold := hold ▸ hn
  have hhn : h ≠ n := ne_of_mem_of_not_mem List.mem_cons_self hnold
  have htn : t ≠ n := ne_of_mem_of_not_mem (by simp [cells]) hnold
  refine ⟨?_, ?_, ?_, ?_, ?_⟩
  · rw [hnew, hperm.nodup_iff, List.nodup_cons]
    exact ⟨hn, hnodup⟩
  · rw [hnew, hperm.mem_iff, List.mem_cons, not_or]
    exact ⟨Ne.symm hnull, hnonnull⟩
  · rw [hnew]
    exact hpath.insert hnodup hn
  · rw [Function.update_of_ne hhq, Function.update_of_ne hhn, hl.first]
  · rw [Function.update_of_ne htn, Function.update_of_ne htp, hl.last]

/-- A cell of the list is taken out. -/
theorem remove (hl : IsList next prev null h t (A ++ n :: B)) :
    IsList (Function.update next (prev n) (next n)) (Function.update prev (next n) (prev n)) null h t
      (A ++ B) := by
  obtain ⟨A', p, q, B', hA, hB, hcells⟩ := cells_split h t A B
  have hold : cells h t (A ++ n :: B) = A' ++ p :: n :: q :: B' := by
    simpa using hcells [n]
  have hnew : cells h t (A ++ B) = A' ++ p :: q :: B' := by
    simpa using hcells []
  have hpath := hl.path
  have hnodup := hl.nodup
  have hnonnull := hl.nonnull
  rw [hold] at hpath hnodup hnonnull
  obtain ⟨-, ⟨-, hpn⟩, hrest⟩ := Path.split.mp hpath
  obtain ⟨⟨hnq, -⟩, -⟩ := List.isChain_cons_cons.mp hrest
  rw [hpn, hnq]
  have hsub : (A' ++ p :: q :: B').Sublist (A' ++ p :: n :: q :: B') :=
    (List.Sublist.refl _).append (((List.Sublist.refl _).cons n).cons_cons p)
  obtain ⟨hfirst, hlast⟩ := ends_ne hA hB (hsub.nodup hnodup)
  refine ⟨?_, ?_, ?_, ?_, ?_⟩
  · rw [hnew]
    exact hsub.nodup hnodup
  · rw [hnew]
    exact fun hm => hnonnull (hsub.mem hm)
  · rw [hnew]
    exact hpath.remove hnodup
  · rw [Function.update_of_ne hfirst, hl.first]
  · rw [Function.update_of_ne hlast, hl.last]

end IsList

/-! ## Families of lists -/

/-- Disjoint lists. -/
structure Family (next prev : α → α) (null : α) (hd tl : ι → α) (seq : ι → List α) : Prop where
  lists : ∀ i, IsList next prev null (hd i) (tl i) (seq i)
  disjoint : ∀ i j, i ≠ j → List.Disjoint (cells (hd i) (tl i) (seq i)) (cells (hd j) (tl j) (seq j))

namespace Family

variable [DecidableEq ι] {hd tl : ι → α} {seq : ι → List α} {xs A B : List α} {n q : α} {i : ι}

/-- **One list changes**, within its own cells and cells that are in no list, and the links of the
others stay. -/
theorem change (hf : Family next prev null hd tl seq)
    (hlist : IsList next' prev' null (hd i) (tl i) xs)
    (hsub : ∀ a ∈ cells (hd i) (tl i) xs,
      a ∈ cells (hd i) (tl i) (seq i) ∨ ∀ j, a ∉ cells (hd j) (tl j) (seq j))
    (hother : ∀ j, j ≠ i → ∀ a ∈ cells (hd j) (tl j) (seq j), next' a = next a ∧ prev' a = prev a) :
    Family next' prev' null hd tl (Function.update seq i xs) := by
  have hdisj : ∀ j, j ≠ i →
      List.Disjoint (cells (hd i) (tl i) xs) (cells (hd j) (tl j) (seq j)) := by
    intro j hji a ha haj
    rcases hsub a ha with hold | hnew
    · exact hf.disjoint i j (Ne.symm hji) hold haj
    · exact hnew j haj
  refine ⟨fun j => ?_, fun j k hjk => ?_⟩
  · by_cases hji : j = i
    · subst hji
      rw [Function.update_self]
      exact hlist
    · rw [Function.update_of_ne hji]
      exact (hf.lists j).congr (fun a ha => (hother j hji a ha).1) fun a ha => (hother j hji a ha).2
  · have hcells : ∀ l, cells (hd l) (tl l) (Function.update seq i xs l) =
        Function.update (fun l => cells (hd l) (tl l) (seq l)) i (cells (hd i) (tl i) xs) l :=
      Function.apply_update (fun l => cells (hd l) (tl l)) seq i xs
    rw [hcells, hcells]
    refine Chain.disjoint_update hjk (fun hji => ?_) (fun hki => ?_) fun _ _ => hf.disjoint j k hjk
    · subst hji
      exact hdisj k (Ne.symm hjk)
    · subst hki
      exact hdisj j hjk

variable [DecidableEq α]

/-- A cell that is in no list goes into one, in front of `q`. -/
theorem insert (hf : Family next prev null hd tl seq) (hseq : seq i = A ++ B)
    (hq : (B ++ [tl i]).head? = some q) (hn : ∀ j, n ∉ cells (hd j) (tl j) (seq j)) (hnull : n ≠ null) :
    Family (Function.update (Function.update next (prev q) n) n q)
      (Function.update (Function.update prev n (prev q)) q n) null hd tl
      (Function.update seq i (A ++ n :: B)) := by
  have hl := hf.lists i
  have hni := hn i
  rw [hseq] at hl hni
  have hp : prev q ∈ cells (hd i) (tl i) (seq i) := hseq ▸ hl.prev_mem hq
  have hqi : q ∈ cells (hd i) (tl i) (seq i) := by
    rw [hseq, cells, List.append_assoc]
    exact List.mem_cons_of_mem _ (List.mem_append_right _ (List.mem_of_mem_head? hq))
  refine hf.change (hl.insert hq hni hnull) (fun a ha => ?_) fun j hji a ha => ?_
  · rw [hseq]
    by_cases han : a = n
    · exact .inr (han ▸ hn)
    · refine .inl ?_
      simp only [cells, List.mem_cons, List.mem_append] at ha ⊢
      tauto
  · have hout : ∀ b ∈ cells (hd i) (tl i) (seq i), a ≠ b := fun b hb he =>
      hf.disjoint j i hji ha (he ▸ hb)
    have han : a ≠ n := fun he => hn j (he ▸ ha)
    rw [Function.update_of_ne han, Function.update_of_ne (hout _ hp), Function.update_of_ne (hout _ hqi),
      Function.update_of_ne han]
    exact ⟨rfl, rfl⟩

/-- A cell is taken out of its list. -/
theorem remove (hf : Family next prev null hd tl seq) (hseq : seq i = A ++ n :: B) :
    Family (Function.update next (prev n) (next n)) (Function.update prev (next n) (prev n)) null hd tl
        (Function.update seq i (A ++ B)) ∧
      ∀ j, n ∉ cells (hd j) (tl j) (Function.update seq i (A ++ B) j) := by
  have hl := hf.lists i
  rw [hseq] at hl
  have hsub : ∀ a ∈ cells (hd i) (tl i) (A ++ B), a ∈ cells (hd i) (tl i) (seq i) := by
    intro a ha
    rw [hseq]
    simp only [cells, List.mem_cons, List.mem_append] at ha ⊢
    tauto
  obtain ⟨hp, hq⟩ := hl.neighbours_mem
  have hni : n ∈ cells (hd i) (tl i) (seq i) := by
    rw [hseq]
    simp [cells]
  refine ⟨hf.change hl.remove (fun a ha => .inl (hsub a ha)) fun j hji a ha => ?_, fun j hm => ?_⟩
  · have hout : ∀ b ∈ cells (hd i) (tl i) (seq i), a ≠ b := fun b hb he =>
      hf.disjoint j i hji ha (he ▸ hb)
    rw [Function.update_of_ne (hout _ (hsub _ hp)), Function.update_of_ne (hout _ (hsub _ hq))]
    exact ⟨rfl, rfl⟩
  · by_cases hji : j = i
    · subst hji
      rw [Function.update_self] at hm
      -- it was there only once
      have hperm : (cells (hd j) (tl j) (A ++ n :: B)).Perm (n :: cells (hd j) (tl j) (A ++ B)) := by
        simp only [cells, List.append_assoc, List.cons_append]
        exact (List.perm_middle.cons _).trans (List.Perm.swap ..)
      exact (List.nodup_cons.mp (hperm.nodup_iff.mp hl.nodup)).1 hm
    · rw [Function.update_of_ne hji] at hm
      exact hf.disjoint j i hji hm hni

end Family

end Links
