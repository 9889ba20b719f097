import Mathlib.Data.List.Nodup
import Mathlib.Logic.Function.Basic

/-!
# Chains through a successor function

A successor function `next : α → α` together with a set of end marks `stop`
turns every start value into a (possibly infinite) walk. `Visits next stop c K`
says that the walk from `c` visits exactly the list `K` and then meets an end
mark. Allocation tables and intrusive singly linked lists are of this form.

The list is unique and has no duplicates, so a chain is finite and acyclic as
soon as it exists. The rest are the rules for changing `next`: away from the
chain nothing happens, at its last element it can be cut or extended.

Of a family of disjoint chains, one member can be exchanged (`disjoint_update`).
-/

namespace Chain

variable {α : Type*} {next next' : α → α} {stop : α → Prop}

/-- The walk from `c` visits exactly `K` and then stops. -/
def Visits (next : α → α) (stop : α → Prop) : α → List α → Prop
  | c, [] => stop c
  | c, k :: K => c = k ∧ ¬ stop k ∧ Visits next stop (next k) K

/-- The elements a walk visits are determined by where it starts. -/
theorem Visits.unique : ∀ {c : α} {K K' : List α},
    Visits next stop c K → Visits next stop c K' → K = K'
  | _, [], [], _, _ => rfl
  | _, [], _ :: _, h, h' => absurd (h'.1 ▸ h) h'.2.1
  | _, _ :: _, [], h, h' => absurd (h.1 ▸ h') h.2.1
  | _, k :: K, k' :: K', h, h' => by
    obtain ⟨rfl, -, hK⟩ := h
    obtain ⟨rfl, -, hK'⟩ := h'
    rw [Visits.unique hK hK']

theorem Visits.not_stop_of_mem : ∀ {c k : α} {K : List α},
    Visits next stop c K → k ∈ K → ¬ stop k
  | _, _, k' :: K, h, hk => by
    rcases List.mem_cons.mp hk with rfl | hk
    · exact h.2.1
    · exact h.2.2.not_stop_of_mem hk

/-- The part of a chain from one of its elements on. -/
theorem Visits.suffix : ∀ {c k : α} {A B : List α},
    Visits next stop c (A ++ k :: B) → Visits next stop k (k :: B)
  | _, _, [], _, h => by
    obtain ⟨rfl, hs, hB⟩ := h
    exact ⟨rfl, hs, hB⟩
  | _, _, _ :: A, _, h => h.2.2.suffix (A := A)

/-- A chain is acyclic: a repeated element would have two different rests. -/
theorem Visits.nodup : ∀ {c : α} {K : List α}, Visits next stop c K → K.Nodup
  | _, [], _ => List.nodup_nil
  | c, k :: K, h => by
    have hK := h.2.2.nodup
    refine List.nodup_cons.mpr ⟨fun hmem => ?_, hK⟩
    obtain ⟨A, B, rfl⟩ := List.append_of_mem hmem
    have h1 : Visits next stop k (k :: (A ++ k :: B)) := ⟨rfl, h.2.1, h.2.2⟩
    have h2 : Visits next stop k (k :: B) := h.2.2.suffix
    have heq := congrArg List.length (h1.unique h2)
    simp only [List.length_cons, List.length_append] at heq
    omega

/-- Only the successors of the chain's own elements matter. -/
theorem Visits.congr : ∀ {c : α} {K : List α}, Visits next stop c K →
    (∀ k ∈ K, next' k = next k) → Visits next' stop c K
  | _, [], h, _ => h
  | _, k :: K, h, hk => by
    refine ⟨h.1, h.2.1, ?_⟩
    rw [hk k (List.mem_cons_self ..)]
    exact h.2.2.congr fun x hx => hk x (List.mem_cons_of_mem _ hx)

/-- Cutting a chain after one of its elements. -/
theorem Visits.cut : ∀ {c l : α} {A B : List α}, Visits next stop c (A ++ l :: B) →
    (∀ k ∈ A, next' k = next k) → stop (next' l) → Visits next' stop c (A ++ [l])
  | _, _, [], _, h, _, hl => ⟨h.1, h.2.1, hl⟩
  | _, _, a :: A, _, h, hA, hl => by
    refine ⟨h.1, h.2.1, ?_⟩
    rw [hA a (List.mem_cons_self ..)]
    exact h.2.2.cut (fun x hx => hA x (List.mem_cons_of_mem _ hx)) hl

/-- Extending a chain behind its last element. -/
theorem Visits.extend : ∀ {c l e : α} {A : List α}, Visits next stop c (A ++ [l]) →
    (∀ k ∈ A, next' k = next k) → next' l = e → ¬ stop e → stop (next' e) →
    Visits next' stop c (A ++ [l, e])
  | _, _, _, [], h, _, hl, he, hs => ⟨h.1, h.2.1, hl, he, hs⟩
  | _, _, _, a :: A, h, hA, hl, he, hs => by
    refine ⟨h.1, h.2.1, ?_⟩
    rw [hA a (List.mem_cons_self ..)]
    exact h.2.2.extend (fun x hx => hA x (List.mem_cons_of_mem _ hx)) hl he hs

/-- One step along a chain: the successor is the next element, or a stop. -/
theorem Visits.next_mem {c k k' : α} {A B : List α}
    (h : Visits next stop c (A ++ k :: k' :: B)) : next k = k' :=
  h.suffix.2.2.1

theorem Visits.next_last {c k : α} {A : List α}
    (h : Visits next stop c (A ++ [k])) : stop (next k) :=
  h.suffix.2.2

/-- Two members of a family of disjoint lists, of which the member `i` gets the list `xs`. -/
theorem disjoint_update {ι : Type*} [DecidableEq ι] {f : ι → List α} {xs : List α} {i j k : ι}
    (hjk : j ≠ k) (hj : j = i → List.Disjoint xs (f k)) (hk : k = i → List.Disjoint xs (f j))
    (hother : j ≠ i → k ≠ i → List.Disjoint (f j) (f k)) :
    List.Disjoint (Function.update f i xs j) (Function.update f i xs k) := by
  by_cases hji : j = i
  · rw [hji, Function.update_self, Function.update_of_ne (hji ▸ Ne.symm hjk)]
    exact hj hji
  · rw [Function.update_of_ne hji]
    by_cases hki : k = i
    · rw [hki, Function.update_self]
      exact List.disjoint_symm (hk hki)
    · rw [Function.update_of_ne hki]
      exact hother hji hki

end Chain
