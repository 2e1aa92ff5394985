import Mathlib.Data.List.Basic

/-!
# Labelled transition systems

Machines with initial states and labelled steps, their finite runs, the reachability
induction, and the two simulation rules: a forward one with a mapping from concrete to
abstract states under an invariant, and a backward one whose relation may guess the
abstract state from the future of the run. Traces keep the labels a predicate selects. A
machine can carry a record of its run next to its state.
-/

namespace Lib

universe u v w x

/-- An element of a list that just grew is the new one, or one the list had. -/
theorem snoc_eq_append_cons {α : Type u} {as before after : List α} {a x : α}
    (h : as ++ [a] = before ++ x :: after) :
    (before = as ∧ x = a ∧ after = []) ∨
      ∃ after', after = after' ++ [a] ∧ as = before ++ x :: after' := by
  rcases List.eq_nil_or_concat after with rfl | ⟨after', last, rfl⟩
  · obtain ⟨hbefore, hx⟩ := List.append_inj' h rfl
    exact .inl ⟨hbefore.symm, (List.singleton_inj.mp hx).symm, rfl⟩
  · rw [List.concat_eq_append, ← List.cons_append, ← List.append_assoc] at h
    obtain ⟨has, ha⟩ := List.append_inj' h rfl
    rw [List.singleton_inj.mp ha]
    exact .inr ⟨after', List.concat_eq_append, has⟩

/-- A machine: which states are initial, and which labelled steps a state can take. -/
structure Machine (S : Type u) (L : Type v) where
  init : S → Prop
  step : S → L → S → Prop

namespace Machine

variable {S : Type u} {L : Type v} (M : Machine S L)

/-- A finite run: the steps from the first state to the last carry the listed labels. -/
inductive Run : S → List L → S → Prop
  | nil (s : S) : Run s [] s
  | cons {s t r : S} {l : L} {ls : List L} : M.step s l t → Run t ls r → Run s (l :: ls) r

/-- A state is reachable when some run from an initial state ends in it. -/
def Reachable (s : S) : Prop := ∃ s₀ ls, M.init s₀ ∧ M.Run s₀ ls s

variable {M}

/-- One step is a run. -/
theorem Run.single {s t : S} {l : L} (h : M.step s l t) : M.Run s [l] t :=
  .cons h (.nil t)

/-- A run goes on with another from where it ends. -/
theorem Run.append {s t r : S} {ls ms : List L} (h : M.Run s ls t) (h' : M.Run t ms r) :
    M.Run s (ls ++ ms) r := by
  induction h with
  | nil => exact h'
  | cons hstep _ ih => exact .cons hstep (ih h')

/-- A run with a given end is found one step at a time. -/
theorem Run.exists_cons {P : S → Prop} {s t : S} {l : L} {ls : List L} (hstep : M.step s l t)
    (h : ∃ r, M.Run t ls r ∧ P r) : ∃ r, M.Run s (l :: ls) r ∧ P r := by
  obtain ⟨r, hrun, hr⟩ := h
  exact ⟨r, .cons hstep hrun, hr⟩

/-- A predicate every step keeps holds at the end of a run that starts in it. -/
theorem Run.invariant {I : S → Prop} (hstep : ∀ s l t, I s → M.step s l t → I t)
    {s t : S} {ls : List L} (h : M.Run s ls t) (hs : I s) : I t := by
  induction h with
  | nil => exact hs
  | cons hs' _ ih => exact ih (hstep _ _ _ hs hs')

/-- A predicate of the labels so far and the state, kept by every step, holds of a whole run. -/
theorem Run.history {I : List L → S → Prop}
    (hstep : ∀ ls s l t, I ls s → M.step s l t → I (ls ++ [l]) t)
    {s t : S} {ls : List L} (h : M.Run s ls t) {past : List L} (hs : I past s) :
    I (past ++ ls) t := by
  induction h generalizing past with
  | nil => rwa [List.append_nil]
  | @cons s t r l ls hst _ ih =>
    have hr := ih (hstep past s l t hs hst)
    rwa [List.append_assoc, List.singleton_append] at hr

/-- Such a predicate holds of a whole run when it holds at its start. -/
theorem Run.history_nil {I : List L → S → Prop} {s t : S} {ls : List L} (h : M.Run s ls t)
    (hs : I [] s) (hstep : ∀ ls s l t, I ls s → M.step s l t → I (ls ++ [l]) t) : I ls t := by
  have hend := h.history hstep hs
  rwa [List.nil_append] at hend

/-- The machine that takes only the steps `ok` allows: its runs are the runs of which every
step is allowed. -/
def restrict (M : Machine S L) (ok : S → L → S → Prop) : Machine S L where
  init := M.init
  step s l t := M.step s l t ∧ ok s l t

/-- A run of allowed steps is a run. -/
theorem Run.of_restrict {ok : S → L → S → Prop} {s t : S} {ls : List L}
    (h : (M.restrict ok).Run s ls t) : M.Run s ls t := by
  induction h with
  | nil s => exact .nil s
  | cons hstep _ ih => exact .cons hstep.1 ih

/-- With more steps allowed the same runs are there. -/
theorem Run.restrict_mono {ok ok' : S → L → S → Prop} (hok : ∀ s l t, ok s l t → ok' s l t)
    {s t : S} {ls : List L} (h : (M.restrict ok).Run s ls t) : (M.restrict ok').Run s ls t := by
  induction h with
  | nil s => exact .nil s
  | cons hstep _ ih => exact .cons ⟨hstep.1, hok _ _ _ hstep.2⟩ ih

/-- A state reached by allowed steps is reachable. -/
theorem Reachable.of_restrict {ok : S → L → S → Prop} {s : S}
    (h : (M.restrict ok).Reachable s) : M.Reachable s := by
  obtain ⟨s₀, ls, hinit, hrun⟩ := h
  exact ⟨s₀, ls, hinit, hrun.of_restrict⟩

/-- With more steps allowed the same states are reached. -/
theorem Reachable.restrict_mono {ok ok' : S → L → S → Prop}
    (hok : ∀ s l t, ok s l t → ok' s l t) {s : S} (h : (M.restrict ok).Reachable s) :
    (M.restrict ok').Reachable s := by
  obtain ⟨s₀, ls, hinit, hrun⟩ := h
  exact ⟨s₀, ls, hinit, hrun.restrict_mono hok⟩

variable (M) in
/-- A finite run with the label and the end of every step. -/
inductive Path : S → List (L × S) → S → Prop
  | nil (s : S) : Path s [] s
  | snoc {s t r : S} {l : L} {ps : List (L × S)} :
      Path s ps t → M.step t l r → Path s (ps ++ [(l, r)]) r

/-- Initial states are reachable. -/
theorem Reachable.of_init {s : S} (h : M.init s) : M.Reachable s :=
  ⟨s, [], h, .nil s⟩

/-- Runs from reachable states end in reachable states. -/
theorem Reachable.run {s t : S} {ls : List L} (h : M.Reachable s) (hr : M.Run s ls t) :
    M.Reachable t := by
  obtain ⟨s₀, ms, hinit, hms⟩ := h
  exact ⟨s₀, ms ++ ls, hinit, hms.append hr⟩

/-- Steps from reachable states lead to reachable states. -/
theorem Reachable.step {s t : S} {l : L} (h : M.Reachable s) (hs : M.step s l t) :
    M.Reachable t :=
  h.run (.single hs)

/-- A path goes on with any run from where it ends. -/
theorem Path.exists_extend {s t r : S} {ps : List (L × S)} {ls : List L} (h : M.Path s ps t)
    (hrun : M.Run t ls r) : ∃ qs, M.Path s qs r := by
  induction hrun generalizing ps with
  | nil => exact ⟨ps, h⟩
  | cons hstep _ ih => exact ih (h.snoc hstep)

/-- Where a path from an initial state ends is reachable. -/
theorem Path.reachable {s t : S} {ps : List (L × S)} (h : M.Path s ps t) (hinit : M.init s) :
    M.Reachable t := by
  induction h with
  | nil => exact .of_init hinit
  | snoc _ hstep ih => exact ih.step hstep

/-- Inductive invariants hold in every reachable state. -/
theorem Reachable.invariant {I : S → Prop} (hinit : ∀ s, M.init s → I s)
    (hstep : ∀ s l t, I s → M.step s l t → I t) {s : S} (h : M.Reachable s) : I s := by
  obtain ⟨s₀, ls, h₀, hrun⟩ := h
  exact hrun.invariant hstep (hinit s₀ h₀)

end Machine

open Machine

section Simulation

variable {S : Type u} {L : Type v} {A : Type w} {K : Type x}

/-- A refinement mapping: the image of every step from a reachable state is one step, under
a label that may depend on the state the step leaves. -/
structure Refines (M : Machine S L) (N : Machine A K) (f : S → A) (lab : S → L → K) : Prop where
  init : ∀ s, M.init s → N.init (f s)
  step : ∀ s l t, M.Reachable s → M.step s l t → N.step (f s) (lab s l) (f t)

/-- A mapped run ends in the image of where the run ends. -/
theorem Refines.reachable {M : Machine S L} {N : Machine A K} {f : S → A} {lab : S → L → K}
    (h : Refines M N f lab) {s : S} (hs : M.Reachable s) : N.Reachable (f s) := by
  obtain ⟨s₀, ls, h₀, hrun⟩ := hs
  have hmap : ∀ {s t ls}, M.Run s ls t → M.Reachable s → N.Reachable (f s) →
      N.Reachable (f t) := by
    intro s t ls hrun
    induction hrun with
    | nil => exact fun _ hf ↦ hf
    | cons hstep _ ih =>
      intro hs hf
      exact ih (hs.step hstep) (hf.step (h.step _ _ _ hs hstep))
  exact hmap hrun (.of_init h₀) (.of_init (h.init _ h₀))

/-- A mapping whose labels do not depend on the state sends runs to runs, label by label. -/
theorem Refines.run {M : Machine S L} {N : Machine A K} {f : S → A} {lab : L → K}
    (h : Refines M N f fun _ ↦ lab) {s t : S} {ls : List L} (hs : M.Reachable s)
    (hrun : M.Run s ls t) : N.Run (f s) (ls.map lab) (f t) := by
  induction hrun with
  | nil => exact .nil _
  | cons hstep _ ih => exact .cons (h.step _ _ _ hs hstep) (ih (hs.step hstep))

/-- The machine with a record next to its state: steps update the record and never read it. -/
def Machine.withRecord (M : Machine S L) (start : A) (record : S → L → S → A → A) :
    Machine (S × A) L where
  init s := M.init s.1 ∧ s.2 = start
  step s l t := M.step s.1 l t.1 ∧ t.2 = record s.1 l t.1 s.2

section Record

variable {M : Machine S L} {start : A} {record : S → L → S → A → A}

/-- Recording does not restrict the runs. -/
theorem withRecord_refines : Refines (M.withRecord start record) M Prod.fst fun _ l ↦ l where
  init := fun _ h ↦ h.1
  step := fun _ _ _ _ h ↦ h.1

/-- Every run can be recorded. -/
theorem Machine.Reachable.exists_record {s : S} (h : M.Reachable s) :
    ∃ a, (M.withRecord start record).Reachable (s, a) := by
  refine h.invariant (I := fun s ↦ ∃ a, (M.withRecord start record).Reachable (s, a))
    (fun s hs ↦ ⟨start, .of_init ⟨hs, rfl⟩⟩) ?_
  rintro s l t ⟨a, ha⟩ hstep
  have hnext : (M.withRecord start record).step (s, a) l (t, record s l t a) := ⟨hstep, rfl⟩
  exact ⟨_, ha.step hnext⟩

/-- What the record says of the state is an invariant of the machine's steps. -/
theorem Machine.Reachable.record_invariant {I : S → A → Prop} (hinit : ∀ s, M.init s → I s start)
    (hstep : ∀ s l t a, M.Reachable s → I s a → M.step s l t → I t (record s l t a)) {s : S}
    {a : A} (h : (M.withRecord start record).Reachable (s, a)) : I s a := by
  have hI : M.Reachable s ∧ I s a := by
    refine h.invariant (I := fun s ↦ M.Reachable s.1 ∧ I s.1 s.2) ?_ ?_
    · rintro ⟨s, _⟩ ⟨hs, rfl⟩
      exact ⟨.of_init hs, hinit s hs⟩
    · rintro ⟨s, a⟩ l ⟨t, b⟩ ⟨hreach, hI⟩ ⟨hst, hb⟩
      obtain rfl : b = record s l t a := hb
      exact ⟨hreach.step hst, hstep s l t a hreach hI hst⟩
  exact hI.2

end Record

/-- A forward simulation: every step from a related pair is answered by a run, whose labels
`ok` allows for that step, into a related pair. -/
structure ForwardSim (M : Machine S L) (N : Machine A K) (ok : L → List K → Prop)
    (R : S → A → Prop) : Prop where
  init : ∀ s, M.init s → ∃ a, N.init a ∧ R s a
  step : ∀ s l t a, R s a → M.step s l t → ∃ ms b, ok l ms ∧ N.Run a ms b ∧ R t b

/-- A forward simulation answers whole runs from the initial states. -/
theorem ForwardSim.run {M : Machine S L} {N : Machine A K} {ok : L → List K → Prop}
    {R : S → A → Prop} (h : ForwardSim M N ok R) {s t : S} {ls : List L} (hs : M.init s)
    (hrun : M.Run s ls t) :
    ∃ a parts b, N.init a ∧ List.Forall₂ ok ls parts ∧ N.Run a parts.flatten b ∧ R t b := by
  obtain ⟨a, ha, hR⟩ := h.init s hs
  have hsim : ∀ {s t ls}, M.Run s ls t → ∀ a, R s a →
      ∃ parts b, List.Forall₂ ok ls parts ∧ N.Run a parts.flatten b ∧ R t b := by
    intro s t ls hrun
    induction hrun with
    | nil => exact fun a hR ↦ ⟨[], a, .nil, .nil a, hR⟩
    | cons hstep _ ih =>
      intro a hR
      obtain ⟨ms, b, hok, hrun₁, hR₁⟩ := h.step _ _ _ a hR hstep
      obtain ⟨parts, c, hall, hrun₂, hR₂⟩ := ih b hR₁
      exact ⟨ms :: parts, c, .cons hok hall, hrun₁.append hrun₂, hR₂⟩
  obtain ⟨parts, b, hall, hrun', hR'⟩ := hsim hrun a hR
  exact ⟨a, parts, b, ha, hall, hrun', hR'⟩

/-- A backward simulation: whatever abstract state explains the end of a step, some state
explains its start and reaches it with the same visible labels. The relation may therefore
guess what the rest of the run will decide. -/
structure BackwardSim (M : Machine S L) (N : Machine A L) (vis : L → Bool)
    (B : S → A → Prop) : Prop where
  init : ∀ s a, M.init s → B s a → N.init a
  total : ∀ s, M.Reachable s → ∃ a, B s a
  step : ∀ s l t b, M.Reachable s → M.step s l t → B t b →
    ∃ a ms, B s a ∧ N.Run a ms b ∧ ms.filter vis = [l].filter vis

/-- A backward simulation gives every run an abstract run with the same visible labels. -/
theorem BackwardSim.run {M : Machine S L} {N : Machine A L} {vis : L → Bool}
    {B : S → A → Prop} (h : BackwardSim M N vis B) {s t : S} {ls : List L} (hs : M.init s)
    (hrun : M.Run s ls t) :
    ∃ a ms b, N.init a ∧ N.Run a ms b ∧ ms.filter vis = ls.filter vis := by
  have hsim : ∀ {s t ls}, M.Run s ls t → M.Reachable s → ∀ b, B t b →
      ∃ a ms, B s a ∧ N.Run a ms b ∧ ms.filter vis = ls.filter vis := by
    intro s t ls hrun
    induction hrun with
    | nil => exact fun _ b hB ↦ ⟨b, [], hB, .nil b, rfl⟩
    | @cons s t r l ls hstep _ ih =>
      intro hreach b hB
      obtain ⟨c, ms, hBc, hrun₂, htr₂⟩ := ih (hreach.step hstep) b hB
      obtain ⟨a, ks, hBa, hrun₁, htr₁⟩ := h.step _ _ _ c hreach hstep hBc
      refine ⟨a, ks ++ ms, hBa, hrun₁.append hrun₂, ?_⟩
      rw [List.filter_append, htr₁, htr₂, ← List.filter_append, List.singleton_append]
  obtain ⟨b, hB⟩ := h.total t ((Reachable.of_init hs).run hrun)
  obtain ⟨a, ms, hBa, hrun', htr⟩ := hsim hrun (.of_init hs) b hB
  exact ⟨a, ms, b, h.init s a hs hBa, hrun', htr⟩

end Simulation

end Lib
