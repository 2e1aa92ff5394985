import NrKernel.Lib.Transition

/-!
# Trace inclusion

One machine implements another one when every run of it shows what some run of the other one
shows. Each of the simulation rules gives an implementation, and implementations compose.
-/

namespace Lib

universe u v w x y z o

open Machine

variable {S : Type u} {L : Type v} {A : Type w} {K : Type x} {B : Type y} {J : Type z}
  {O : Type o}

/-- Every run of `M` has a run of `N` with the same observations. -/
def Implements (M : Machine S L) (N : Machine A K) (see : L → Option O) (see' : K → Option O) :
    Prop :=
  ∀ s ls t, M.init s → M.Run s ls t →
    ∃ a ks b, N.init a ∧ N.Run a ks b ∧ ks.filterMap see' = ls.filterMap see

variable {M : Machine S L} {N : Machine A K} {P : Machine B J} {see : L → Option O}
  {see' : K → Option O} {see'' : J → Option O}

/-- Implementations compose. -/
theorem Implements.trans (h : Implements M N see see') (h' : Implements N P see' see'') :
    Implements M P see see'' := by
  intro s ls t hinit hrun
  obtain ⟨a, ks, b, hinit', hrun', heq⟩ := h s ls t hinit hrun
  obtain ⟨c, js, d, hinit'', hrun'', heq'⟩ := h' a ks b hinit' hrun'
  exact ⟨c, js, d, hinit'', hrun'', heq'.trans heq⟩

/-- A refinement mapping that keeps what a label shows. -/
theorem Refines.implements {f : S → A} {lab : L → K} (h : Refines M N f fun _ ↦ lab)
    (hsee : ∀ l, see' (lab l) = see l) : Implements M N see see' := by
  intro s ls t hinit hrun
  refine ⟨f s, ls.map lab, f t, h.init s hinit, h.run (.of_init hinit) hrun, ?_⟩
  rw [List.filterMap_map]
  exact List.filterMap_congr fun l _ ↦ hsee l

/-- A forward simulation whose answers show what the step shows. -/
theorem ForwardSim.implements {ok : L → List K → Prop} {R : S → A → Prop}
    (h : ForwardSim M N ok R) (hsee : ∀ l ks, ok l ks → ks.filterMap see' = [l].filterMap see) :
    Implements M N see see' := by
  intro s ls t hinit hrun
  obtain ⟨a, parts, b, hinit', hall, hrun', _⟩ := h.run hinit hrun
  refine ⟨a, parts.flatten, b, hinit', hrun', ?_⟩
  clear hrun hrun'
  induction hall with
  | nil => rfl
  | @cons l ks ls parts hok _ ih =>
    rw [List.flatten_cons, List.filterMap_append, hsee l ks hok, ih, ← List.filterMap_append,
      List.singleton_append]

/-- A backward simulation keeps what the visible labels show. -/
theorem BackwardSim.implements {N : Machine A L} {vis : L → Bool} {R : S → A → Prop}
    (h : BackwardSim M N vis R) (hsee : ∀ l, vis l = false → see l = none) :
    Implements M N see see := by
  intro s ls t hinit hrun
  obtain ⟨a, ms, b, hinit', hrun', heq⟩ := h.run hinit hrun
  have hvis : ∀ ks : List L, ks.filterMap see = (ks.filter vis).filterMap see := by
    intro ks
    rw [List.filterMap_filter]
    refine List.filterMap_congr fun l _ ↦ ?_
    by_cases hl : vis l = true
    · rw [if_pos hl]
    · rw [if_neg hl, hsee l (eq_false_of_ne_true hl)]
  exact ⟨a, ms, b, hinit', hrun', by rw [hvis ms, hvis ls, heq]⟩

end Lib
