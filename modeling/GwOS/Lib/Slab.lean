import Mathlib.Data.List.Nodup
import Mathlib.Data.List.Count
import Mathlib.Data.Set.Insert
import Mathlib.Tactic.Common

/-!
# Slabs

A slab allocator cuts an arena into blocks of one size and keeps the free blocks of all arenas in
one list, whatever arena they come from. Each arena counts its free blocks, and it is given up as
soon as the count says that all of them are free.

`Holds arenas free` says that `free` has blocks of the arenas only, each once. The blocks that are
not in it are live, and the rules say what the four moves do to the live blocks and to the counts:

- an arena is added (`grow`), with all of its blocks free;
- the first free block is taken (`take`);
- a live block is put back (`put`);
- an arena is given up (`retire`), which no live block notices when all its blocks are free.
-/

/-- The blocks of an arena, and the arena of a block. -/
structure Slab (A B : Type*) where
  owner : B → A
  blocks : A → List B
  nodup : ∀ a, (blocks a).Nodup
  owner_eq : ∀ a, ∀ b ∈ blocks a, owner b = a

namespace Slab

variable {A B : Type*} {k : Slab A B} {arenas : Set A}
  {free rest : List B} {a a' : A} {b c : B}

/-- The free list has blocks of the arenas, each once. -/
structure Holds (k : Slab A B) (arenas : Set A) (free : List B) : Prop where
  nodup : free.Nodup
  arena : ∀ b ∈ free, k.owner b ∈ arenas
  block : ∀ b ∈ free, b ∈ k.blocks (k.owner b)

/-- A block of an arena that is not free. -/
structure Live (k : Slab A B) (arenas : Set A) (free : List B) (b : B) : Prop where
  arena : k.owner b ∈ arenas
  block : b ∈ k.blocks (k.owner b)
  taken : b ∉ free

theorem Holds.nil (k : Slab A B) (arenas : Set A) : k.Holds arenas [] :=
  ⟨List.nodup_nil, fun _ hb => absurd hb List.not_mem_nil, fun _ hb => absurd hb List.not_mem_nil⟩

/-! ## Adding an arena -/

theorem Holds.not_block (h : k.Holds arenas free) (ha : a ∉ arenas) (hb : b ∈ free) :
    b ∉ k.blocks a := by
  intro hmem
  have harena := h.arena b hb
  rw [k.owner_eq a b hmem] at harena
  exact ha harena

theorem Holds.grow (h : k.Holds arenas free) (ha : a ∉ arenas) :
    k.Holds (insert a arenas) (free ++ k.blocks a) := by
  constructor
  · refine List.nodup_append'.mpr ⟨h.nodup, k.nodup a, fun b hb hmem => ?_⟩
    exact h.not_block ha hb hmem
  · intro b hb
    rcases List.mem_append.mp hb with hold | hnew
    · exact Set.mem_insert_of_mem _ (h.arena b hold)
    · rw [k.owner_eq a b hnew]
      exact Set.mem_insert a arenas
  · intro b hb
    rcases List.mem_append.mp hb with hold | hnew
    · exact h.block b hold
    · rw [k.owner_eq a b hnew]
      exact hnew

/-- The blocks of a new arena are free, so none is live. -/
theorem live_grow (ha : a ∉ arenas) :
    k.Live (insert a arenas) (free ++ k.blocks a) b ↔ k.Live arenas free b := by
  constructor
  · intro h
    have htaken := mt List.mem_append.mpr h.taken
    rcases Set.mem_insert_iff.mp h.arena with he | hold
    · exact absurd (.inr (he ▸ h.block)) htaken
    · exact ⟨hold, h.block, fun hmem => htaken (.inl hmem)⟩
  · intro h
    refine ⟨Set.mem_insert_of_mem _ h.arena, h.block, fun hmem => ?_⟩
    rcases List.mem_append.mp hmem with hold | hnew
    · exact h.taken hold
    · exact ha (k.owner_eq a b hnew ▸ h.arena)

/-! ## Taking and putting back a block -/

theorem Holds.take (h : k.Holds arenas (b :: rest)) : k.Holds arenas rest :=
  ⟨(List.nodup_cons.mp h.nodup).2, fun c hc => h.arena c (List.mem_cons_of_mem _ hc),
    fun c hc => h.block c (List.mem_cons_of_mem _ hc)⟩

theorem Holds.live_take (h : k.Holds arenas (b :: rest)) :
    k.Live arenas rest c ↔ k.Live arenas (b :: rest) c ∨ c = b := by
  constructor
  · intro hc
    by_cases he : c = b
    · exact .inr he
    · refine .inl ⟨hc.arena, hc.block, fun hmem => ?_⟩
      exact hc.taken ((List.mem_cons.mp hmem).resolve_left he)
  · rintro (hc | rfl)
    · exact ⟨hc.arena, hc.block, fun hmem => hc.taken (List.mem_cons_of_mem _ hmem)⟩
    · exact ⟨h.arena _ (List.mem_cons_self ..), h.block _ (List.mem_cons_self ..),
        (List.nodup_cons.mp h.nodup).1⟩

theorem Holds.put (h : k.Holds arenas free) (hb : k.Live arenas free b) :
    k.Holds arenas (free ++ [b]) := by
  constructor
  · refine List.nodup_append'.mpr ⟨h.nodup, List.nodup_singleton b, fun c hc hmem => ?_⟩
    exact hb.taken (List.mem_singleton.mp hmem ▸ hc)
  · intro c hc
    rcases List.mem_append.mp hc with hold | hnew
    · exact h.arena c hold
    · exact List.mem_singleton.mp hnew ▸ hb.arena
  · intro c hc
    rcases List.mem_append.mp hc with hold | hnew
    · exact h.block c hold
    · exact List.mem_singleton.mp hnew ▸ hb.block

theorem live_put : k.Live arenas (free ++ [b]) c ↔ k.Live arenas free c ∧ c ≠ b := by
  constructor
  · intro h
    have htaken := mt List.mem_append.mpr h.taken
    exact ⟨⟨h.arena, h.block, fun hmem => htaken (.inl hmem)⟩,
      fun he => htaken (.inr (List.mem_singleton.mpr he))⟩
  · rintro ⟨h, hne⟩
    refine ⟨h.arena, h.block, fun hmem => ?_⟩
    rcases List.mem_append.mp hmem with hold | hnew
    · exact h.taken hold
    · exact hne (List.mem_singleton.mp hnew)

/-! ## Counts -/

variable [DecidableEq A]

/-- How many blocks of an arena are free. -/
def freeOf (k : Slab A B) (free : List B) (a : A) : Nat := free.countP fun b => k.owner b = a

/-- The free list without the blocks of an arena. -/
def retire (k : Slab A B) (free : List B) (a : A) : List B := free.filter fun b => k.owner b ≠ a

theorem freeOf_blocks (k : Slab A B) (a : A) : k.freeOf (k.blocks a) a = (k.blocks a).length := by
  rw [freeOf, List.countP_eq_length]
  intro b hb
  exact decide_eq_true (k.owner_eq a b hb)

theorem Holds.freeOf_absent (h : k.Holds arenas free) (ha : a ∉ arenas) : k.freeOf free a = 0 := by
  rw [freeOf, List.countP_eq_zero]
  intro b hb he
  exact ha (of_decide_eq_true he ▸ h.arena b hb)

theorem freeOf_append (free rest : List B) (a : A) :
    k.freeOf (free ++ rest) a = k.freeOf free a + k.freeOf rest a := List.countP_append ..

theorem freeOf_blocks_ne (h : a' ≠ a) : k.freeOf (k.blocks a) a' = 0 := by
  rw [freeOf, List.countP_eq_zero]
  intro b hb he
  exact h ((of_decide_eq_true he).symm.trans (k.owner_eq a b hb))

theorem freeOf_cons (b : B) (rest : List B) (a : A) :
    k.freeOf (b :: rest) a = k.freeOf rest a + if k.owner b = a then 1 else 0 := by
  simp only [freeOf, List.countP_cons, decide_eq_true_eq]

theorem freeOf_put (free : List B) (b : B) (a : A) :
    k.freeOf (free ++ [b]) a = k.freeOf free a + if k.owner b = a then 1 else 0 := by
  have hnil : k.freeOf [] a = 0 := List.countP_nil
  rw [freeOf_append, freeOf_cons, hnil, Nat.zero_add]

/-! ## Full arenas -/

/-- The free blocks of an arena are some of its blocks. -/
theorem Holds.subperm (h : k.Holds arenas free) (a : A) :
    (free.filter fun b => k.owner b = a).Subperm (k.blocks a) := by
  refine List.subperm_of_subset (h.nodup.filter _) fun b hb => ?_
  obtain ⟨hmem, he⟩ := List.mem_filter.mp hb
  exact of_decide_eq_true he ▸ h.block b hmem

theorem Holds.freeOf_le (h : k.Holds arenas free) (a : A) :
    k.freeOf free a ≤ (k.blocks a).length := by
  rw [freeOf, List.countP_eq_length_filter]
  exact (h.subperm a).length_le

/-- **The count says when an arena is free**: it is the number of the blocks exactly when each of
them is in the list. -/
theorem Holds.full_iff (h : k.Holds arenas free) :
    k.freeOf free a = (k.blocks a).length ↔ ∀ b ∈ k.blocks a, b ∈ free := by
  constructor
  · intro hcount b hb
    rw [freeOf, List.countP_eq_length_filter] at hcount
    have hperm := (h.subperm a).perm_of_length_le (Nat.le_of_eq hcount.symm)
    exact (List.mem_filter.mp (hperm.mem_iff.mpr hb)).1
  · intro hall
    refine Nat.le_antisymm (h.freeOf_le a) ?_
    rw [freeOf, List.countP_eq_length_filter]
    refine (List.subperm_of_subset (k.nodup a) fun b hb => ?_).length_le
    exact List.mem_filter.mpr ⟨hall b hb, decide_eq_true (k.owner_eq a b hb)⟩

/-- An arena that is not full has a live block. -/
theorem Holds.exists_live (h : k.Holds arenas free) (ha : a ∈ arenas)
    (hlt : k.freeOf free a < (k.blocks a).length) : ∃ b ∈ k.blocks a, k.Live arenas free b := by
  have hnot : ¬ ∀ b ∈ k.blocks a, b ∈ free := fun hall => Nat.ne_of_lt hlt (h.full_iff.mpr hall)
  push Not at hnot
  obtain ⟨b, hb, htaken⟩ := hnot
  have howner := k.owner_eq a b hb
  exact ⟨b, hb, howner.symm ▸ ha, howner.symm ▸ hb, htaken⟩

/-- The arena of a live block is not full. -/
theorem Live.not_full (hb : k.Live arenas free b) (h : k.Holds arenas free) :
    k.freeOf free (k.owner b) < (k.blocks (k.owner b)).length := by
  refine Nat.lt_of_le_of_ne (h.freeOf_le _) fun he => ?_
  exact hb.taken (h.full_iff.mp he b hb.block)

/-! ## Giving an arena up -/

theorem Holds.retire (h : k.Holds arenas free) : k.Holds (arenas \ {a}) (k.retire free a) := by
  constructor
  · exact h.nodup.filter _
  · intro b hb
    obtain ⟨hmem, hne⟩ := List.mem_filter.mp hb
    exact ⟨h.arena b hmem, of_decide_eq_true hne⟩
  · intro b hb
    exact h.block b (List.mem_filter.mp hb).1

/-- No live block belongs to an arena that is given up. -/
theorem live_retire (hfull : ∀ b ∈ k.blocks a, b ∈ free) :
    k.Live (arenas \ {a}) (k.retire free a) b ↔ k.Live arenas free b := by
  constructor
  · intro h
    refine ⟨h.arena.1, h.block, fun hmem => h.taken ?_⟩
    exact List.mem_filter.mpr ⟨hmem, decide_eq_true h.arena.2⟩
  · intro h
    refine ⟨⟨h.arena, fun he => h.taken (hfull b ?_)⟩, h.block, fun hmem => ?_⟩
    · exact (Set.mem_singleton_iff.mp he) ▸ h.block
    · exact h.taken (List.mem_filter.mp hmem).1

theorem freeOf_retire_ne (free : List B) (h : a' ≠ a) :
    k.freeOf (k.retire free a) a' = k.freeOf free a' := by
  rw [freeOf, retire, List.countP_filter, freeOf]
  refine List.countP_congr fun b _ => ?_
  rw [Bool.and_eq_true, decide_eq_true_eq, decide_eq_true_eq]
  exact ⟨And.left, fun he => ⟨he, fun ha => h (he.symm.trans ha)⟩⟩

/-- Removing the blocks one by one. -/
theorem Holds.diff_blocks [DecidableEq B] (h : k.Holds arenas free) (a : A) :
    free.diff (k.blocks a) = k.retire free a := by
  rw [h.nodup.sdiff_eq_filter, Slab.retire]
  refine List.filter_congr fun b hb => ?_
  have hiff : b ∈ k.blocks a ↔ k.owner b = a :=
    ⟨fun hmem => k.owner_eq a b hmem, fun he => he ▸ h.block b hb⟩
  simpa using hiff

end Slab
