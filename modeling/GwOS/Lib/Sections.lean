import Mathlib.Logic.Function.Basic
import Mathlib.Logic.Relation
import Mathlib.Data.List.Basic

/-!
# Calls that exclude each other

Threads make calls on a shared object. A call is a sequence of actions, and the actions of two calls may
come in any order, except that a thread begins a call only when no other thread is inside of one. Others,
which make no calls, may act on the object at any time (the noise). Then the actions of the calls come call
by call; and without noise the object is what the calls make of it one after the other.

- `Sections`: the object, with the threads that are inside and the calls that have begun.
- `Sections.InOrder`: the actions of the calls come call by call.
- `Sections.Reaches.inOrder`: it is so in every run.
-/

namespace GwOS

/-- The object; what has been done to it, with a mark on the actions of the calls; what each thread has
still to do in the call that it is inside of; and the calls, in the order in which they have begun. -/
structure Sections (T C σ : Type*) where
  data : σ
  hist : List (Bool × (σ → σ))
  inside : T → Option (C × List (σ → σ))
  log : List (T × C)

namespace Sections

variable {T C σ : Type*}

/-- A sequence of actions. -/
def actAll (fs : List (σ → σ)) (d : σ) : σ := fs.foldl (fun d f => f d) d

@[simp] theorem actAll_nil (d : σ) : actAll [] d = d := rfl

@[simp] theorem actAll_append (fs gs : List (σ → σ)) (d : σ) :
    actAll (fs ++ gs) d = actAll gs (actAll fs d) := List.foldl_append

/-- The actions of the calls. -/
def own (hist : List (Bool × (σ → σ))) : List (σ → σ) := (hist.filter Prod.fst).map Prod.snd

theorem own_act (hist : List (Bool × (σ → σ))) (f : σ → σ) : own (hist ++ [(true, f)]) = own hist ++ [f] := by
  simp [own]

theorem own_noise (hist : List (Bool × (σ → σ))) (f : σ → σ) : own (hist ++ [(false, f)]) = own hist := by
  simp [own]

theorem mem_own {hist : List (Bool × (σ → σ))} {f : σ → σ} : f ∈ own hist ↔ (true, f) ∈ hist := by
  simp [own]

/-- Without noise the actions of the calls are all. -/
theorem own_eq {hist : List (Bool × (σ → σ))} (h : ∀ e ∈ hist, e.1 = true) : own hist = hist.map Prod.snd := by
  rw [own, List.filter_eq_self.mpr h]

variable (actions : T → C → List (σ → σ)) (noise : (σ → σ) → Prop)

/-- The actions of the calls, each in one piece. -/
def whole (log : List (T × C)) : List (σ → σ) := log.flatMap fun e => actions e.1 e.2

theorem whole_concat (log : List (T × C)) (t : T) (c : C) :
    whole actions (log ++ [(t, c)]) = whole actions log ++ actions t c := by
  simp [whole]

section Runs

variable [DecidableEq T]

/-- A thread begins a call, makes the next action of the one it is inside of, or ends it; or somebody else
acts on the object. -/
inductive Step (s : Sections T C σ) : Sections T C σ → Prop
  | enter (t : T) (c : C) (hfree : ∀ u, s.inside u = none) :
      Step s { s with inside := Function.update s.inside t (some (c, actions t c)), log := s.log ++ [(t, c)] }
  | act (t : T) (c : C) (f : σ → σ) (fs : List (σ → σ)) (hin : s.inside t = some (c, f :: fs)) :
      Step s { s with
        data := f s.data, hist := s.hist ++ [(true, f)], inside := Function.update s.inside t (some (c, fs)) }
  | leave (t : T) (c : C) (hin : s.inside t = some (c, [])) :
      Step s { s with inside := Function.update s.inside t none }
  | noise (f : σ → σ) (hf : noise f) : Step s { s with data := f s.data, hist := s.hist ++ [(false, f)] }

/-- The object before the first call. -/
def start (d : σ) : Sections T C σ := ⟨d, [], fun _ => none, []⟩

def Reaches (d : σ) (s : Sections T C σ) : Prop := Relation.ReflTransGen (Step actions noise) (start d) s

end Runs

/-- Nobody is inside, and the calls have been made one after the other; or one thread is, its call is the
last one that has begun, and its first actions have come after the earlier calls. -/
inductive Serial (s : Sections T C σ) : Prop
  | free (hfree : ∀ u, s.inside u = none) (hown : own s.hist = whole actions s.log)
  | busy (t : T) (c : C) (before : List (T × C)) (done rest : List (σ → σ))
      (hin : s.inside t = some (c, rest)) (hother : ∀ u, u ≠ t → s.inside u = none)
      (hlog : s.log = before ++ [(t, c)]) (hact : actions t c = done ++ rest)
      (hown : own s.hist = whole actions before ++ done)

structure InOrder (d : σ) (s : Sections T C σ) : Prop where
  data : s.data = actAll (s.hist.map Prod.snd) d
  noisy : ∀ f, (false, f) ∈ s.hist → noise f
  serial : Serial actions s

variable {actions} {noise} {d : σ} {s s' : Sections T C σ} {t u : T} {c : C} {rest : List (σ → σ)}

/-- The thread that is inside. -/
theorem Serial.of_inside (h : Serial actions s) (hin : s.inside t = some (c, rest)) :
    (∀ u, u ≠ t → s.inside u = none) ∧ ∃ before done, s.log = before ++ [(t, c)] ∧
      actions t c = done ++ rest ∧ own s.hist = whole actions before ++ done := by
  cases h with
  | free hfree hown =>
    rw [hfree t] at hin
    cases hin
  | busy t₀ c₀ before done rest₀ hin₀ hother hlog hact hown =>
    have ht : t = t₀ := by
      by_contra hne
      rw [hother t hne] at hin
      cases hin
    subst ht
    rw [hin₀] at hin
    cases hin
    exact ⟨hother, before, done, hlog, hact, hown⟩

/-- Once nobody is inside, every call has been made in one piece. -/
theorem Serial.of_free (h : Serial actions s) (hfree : ∀ u, s.inside u = none) :
    own s.hist = whole actions s.log := by
  cases h with
  | free _ hown => exact hown
  | busy t c before done rest hin =>
    rw [hfree t] at hin
    cases hin

/-- Every action of a call is one of a call that has begun. -/
theorem Serial.mem_own (h : Serial actions s) {f : σ → σ} (hf : f ∈ own s.hist) :
    ∃ e ∈ s.log, f ∈ actions e.1 e.2 := by
  cases h with
  | free _ hown =>
    rw [hown] at hf
    exact List.mem_flatMap.mp hf
  | busy t c before done rest _ _ hlog hact hown =>
    rw [hown] at hf
    rw [hlog]
    rcases List.mem_append.mp hf with hf | hf
    · obtain ⟨e, he, hfe⟩ := List.mem_flatMap.mp hf
      exact ⟨e, List.mem_append_left _ he, hfe⟩
    · refine ⟨(t, c), List.mem_append_right _ List.mem_cons_self, ?_⟩
      rw [hact]
      exact List.mem_append_left rest hf

variable [DecidableEq T]

theorem Serial.step (h : Serial actions s) (hstep : Step actions noise s s') : Serial actions s' := by
  cases hstep with
  | enter t c hfree =>
    refine .busy t c s.log [] (actions t c) (Function.update_self ..) (fun u hu => ?_) rfl rfl ?_
    · exact (Function.update_of_ne hu ..).trans (hfree u)
    · rw [List.append_nil]
      exact h.of_free hfree
  | act t c f fs hin =>
    obtain ⟨hother, before, done, hlog, hact, hown⟩ := h.of_inside hin
    refine .busy t c before (done ++ [f]) fs (Function.update_self ..) (fun u hu => ?_) hlog ?_ ?_
    · exact (Function.update_of_ne hu ..).trans (hother u hu)
    · rw [hact, List.append_assoc, List.singleton_append]
    · rw [own_act, hown, List.append_assoc]
  | leave t c hin =>
    obtain ⟨hother, before, done, hlog, hact, hown⟩ := h.of_inside hin
    refine .free (fun u => ?_) ?_
    · by_cases hu : u = t
      · rw [hu]
        exact Function.update_self ..
      · exact (Function.update_of_ne hu ..).trans (hother u hu)
    · show own s.hist = whole actions s.log
      rw [hlog, whole_concat, hact, List.append_nil, hown]
  | noise f hf =>
    cases h with
    | free hfree hown =>
      refine .free hfree ?_
      rw [own_noise, hown]
    | busy t c before done rest hin hother hlog hact hown =>
      refine .busy t c before done rest hin hother hlog hact ?_
      rw [own_noise, hown]

theorem InOrder.step (h : InOrder actions noise d s) (hstep : Step actions noise s s') :
    InOrder actions noise d s' := by
  refine ⟨?_, fun g hg => ?_, h.serial.step hstep⟩
  · cases hstep with
    | enter t c hfree => exact h.data
    | leave t c hin => exact h.data
    | act t c f fs hin =>
      show f s.data = _
      rw [h.data, List.map_append, actAll_append]
      rfl
    | noise f hf =>
      show f s.data = _
      rw [h.data, List.map_append, actAll_append]
      rfl
  · cases hstep with
    | enter t c hfree => exact h.noisy g hg
    | leave t c hin => exact h.noisy g hg
    | act t c f fs hin =>
      rcases List.mem_append.mp hg with hg | hg
      · exact h.noisy g hg
      · cases List.mem_singleton.mp hg
    | noise f hf =>
      rcases List.mem_append.mp hg with hg | hg
      · exact h.noisy g hg
      · cases List.mem_singleton.mp hg
        exact hf

/-- **Every run**: the actions of the calls come call by call, in the order in which the calls have
begun. -/
theorem Reaches.inOrder (h : Reaches actions noise d s) : InOrder actions noise d s := by
  induction h with
  | refl => exact ⟨rfl, fun _ hf => absurd hf List.not_mem_nil, .free (fun _ => rfl) rfl⟩
  | tail _ hstep ih => exact ih.step hstep

end Sections

end GwOS
