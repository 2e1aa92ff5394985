import NrKernel.OS.HighLevelInvariant

/-!
# Read your writes

What a process reads from a mapped word is what it last stored there since the mapping was
created, whatever other threads map, unmap, load and store in between.
-/

namespace NrKernel.OS

open Lib PageTable HlSpec

/-- The value a step stores in a word. -/
def AbstractStep.store? (idx : Nat) : AbstractStep → Option Nat
  | .readWrite _ vaddr (.store v .ok) _ => if wordIndexSpec vaddr = idx then some v else none
  | _ => none

/-- The value the last successful store among some steps left in a word. -/
def lastStore (idx : Nat) (steps : List AbstractStep) : Option Nat :=
  steps.foldl (fun last step ↦ (step.store? idx).or last) none

/-- No step stores nothing. -/
@[simp] theorem lastStore_nil (idx : Nat) : lastStore idx [] = none := rfl

private theorem lastStore_append (idx : Nat) (steps : List AbstractStep) (step : AbstractStep) :
    lastStore idx (steps ++ [step]) = (step.store? idx).or (lastStore idx steps) := by
  rw [lastStore, List.foldl_append]
  rfl

/-- A step that is no successful store to the word stores nothing in it. -/
theorem AbstractStep.store?_eq_none {idx threadId vaddr : Nat} {op : RWOp}
    {pte : Option (Nat × PageTableEntry)}
    (h : ∀ v, op = .store v .ok → wordIndexSpec vaddr ≠ idx) :
    (AbstractStep.readWrite threadId vaddr op pte).store? idx = none := by
  unfold store?
  split
  · rename_i heq
    cases heq
    exact if_neg (h _ rfl)
  · rfl

/-- In the run `ps` from `s₀`, the mapping of `base` was created by a map request that ended
in the state `created`, and it stayed through all the steps `since`. -/
def CreatedIn [PhyAddrWidth] (c : AbstractConstants) (s₀ : AbstractVariables)
    (ps : List (AbstractStep × AbstractVariables)) (base : Nat) (pte : PageTableEntry)
    (created : AbstractVariables) (since : List (AbstractStep × AbstractVariables)) : Prop :=
  ∃ before s threadId, ps = before ++ (.mapEnd threadId (.ok ()), created) :: since ∧
    (hlMachine c).Path s₀ before s ∧ NextStep c s created (.mapEnd threadId (.ok ())) ∧
    s.threadState threadId = some (.map base pte) ∧ s.mappings base = none ∧
    created.mappings base = some pte ∧ ∀ x ∈ since, x.2.mappings base = some pte

/-! ## What a step does to a mapping and its words -/

/-- A mapping after a step was there before and keeps its words, but for the one the step
stores in, or the step created it. -/
def KeptOrCreated (c : AbstractConstants) (s1 s2 : AbstractVariables) (step : AbstractStep)
    (base : Nat) (pte : PageTableEntry) : Prop :=
  (s1.mappings base = some pte ∧
    ∀ idx, memDomainFromEntryContains c.physMemSize (idx * wordSize) base pte →
      s2.mem idx = (step.store? idx).or (s1.mem idx)) ∨
  ∃ threadId, step = .mapEnd threadId (.ok ()) ∧
    s1.threadState threadId = some (.map base pte) ∧ s1.mappings base = none

section Step

variable {c : AbstractConstants} {s1 s2 : AbstractVariables} {base : Nat} {pte : PageTableEntry}

private theorem KeptOrCreated.of_eq {step : AbstractStep} (hmap : s2.mappings = s1.mappings)
    (hmem : s2.mem = s1.mem) (hstep : ∀ idx, step.store? idx = none)
    (hpte : s2.mappings base = some pte) : KeptOrCreated c s1 s2 step base pte := by
  refine .inl ⟨hmap ▸ hpte, fun idx _ ↦ ?_⟩
  rw [hstep, Option.none_or, hmem]

private theorem keptOrCreated_readWrite {threadId vaddr : Nat} {op : RWOp}
    {e : Option (Nat × PageTableEntry)} (hstep : stepReadWrite c s1 s2 threadId vaddr op e)
    (hpte : s2.mappings base = some pte) :
    KeptOrCreated c s1 s2 (.readWrite threadId vaddr op e) base pte := by
  obtain ⟨_, hmap, _, hmem⟩ := stepReadWrite_cases hstep
  rcases hmem with ⟨hmem, hop⟩ | ⟨v, b, p, rfl, _, _, hmem⟩
  · apply KeptOrCreated.of_eq hmap hmem _ hpte
    exact fun idx ↦ AbstractStep.store?_eq_none fun v heq ↦ absurd heq (hop v)
  · refine .inl ⟨hmap ▸ hpte, fun idx _ ↦ ?_⟩
    rw [hmem, AbstractStep.store?]
    by_cases hidx : wordIndexSpec vaddr = idx
    · rw [if_pos hidx, ← hidx, PMap.insert_self, Option.some_or]
    · rw [if_neg hidx, PMap.insert_of_ne _ _ (Ne.symm hidx), Option.none_or]

private theorem keptOrCreated_mapEnd (h : HlInv c s1) {threadId : Nat} {result : Except Unit Unit}
    (hstep : stepMapEnd c s1 s2 threadId result) (hpte : s2.mappings base = some pte) :
    KeptOrCreated c s1 s2 (.mapEnd threadId result) base pte := by
  obtain ⟨_, _, _, vaddr, p, hthread, herr, hok⟩ := hstep
  by_cases hv : candidateMappingOverlapsExistingVmem s1.mappings vaddr p
  · exact .of_eq (herr hv).2.1 (herr hv).2.2 (fun _ ↦ rfl) hpte
  · obtain ⟨rfl, hmap, hmem, _⟩ := hok hv
    rw [hmap] at hpte
    rcases (PMap.insert_eq_some _ _ _ _ _).mp hpte with ⟨rfl, rfl⟩ | ⟨_, hold⟩
    · refine .inr ⟨threadId, rfl, hthread, ?_⟩
      by_contra hne
      obtain ⟨q, hq⟩ := Option.ne_none_iff_exists'.mp hne
      exact hv ⟨base, q, hq, overlap_of_base_eq rfl⟩
    · refine .inl ⟨hold, fun idx hidx ↦ ?_⟩
      apply hmem
      rw [h.mem_dom]
      exact ⟨base, pte, hold, hidx⟩

private theorem keptOrCreated_unmapStart (hsound : s2.sound = true) {threadId vaddr : Nat}
    (hstep : stepUnmapStart c s1 s2 threadId vaddr) (hpte : s2.mappings base = some pte) :
    KeptOrCreated c s1 s2 (.unmapStart threadId vaddr) base pte := by
  obtain ⟨_, _, _, hok, hbad⟩ := hstep
  by_cases hs : stepUnmapSound s1.threadState.values vaddr (sizeOf? (s1.mappings vaddr))
  · obtain ⟨_, hchange, _, _⟩ := hok hs
    split at hchange
    · exact .of_eq hchange.1 hchange.2 (fun _ ↦ rfl) hpte
    · obtain ⟨hmap, hdom, hmem⟩ := hchange
      have hold := hpte
      rw [hmap] at hold
      refine .inl ⟨((PMap.remove_eq_some _ _ _ _).mp hold).2, fun idx hidx ↦ ?_⟩
      apply hmem
      rw [hdom]
      exact ⟨base, pte, hpte, hidx⟩
  · exact absurd ((hbad hs).symm.trans hsound) Bool.false_ne_true

/-- The spec of a step for one mapping and its words. -/
theorem keptOrCreated [PhyAddrWidth] (h : HlInv c s1) (hsound1 : s1.sound = true)
    (hsound2 : s2.sound = true) {step : AbstractStep} (hstep : NextStep c s1 s2 step)
    (hpte : s2.mappings base = some pte) : KeptOrCreated c s1 s2 step base pte := by
  unfold NextStep at hstep
  rw [if_pos hsound1] at hstep
  cases step with
  | readWrite threadId vaddr op e => exact keptOrCreated_readWrite hstep hpte
  | mapStart threadId vaddr p =>
    obtain ⟨_, _, _, hok, hbad⟩ := hstep
    by_cases hs : HlSpec.StepMapSound s1.mappings s1.threadState.values vaddr p
    · exact .of_eq (hok hs).2.2.1 (hok hs).2.1 (fun _ ↦ rfl) hpte
    · exact absurd ((hbad hs).symm.trans hsound2) Bool.false_ne_true
  | mapEnd threadId result => exact keptOrCreated_mapEnd h hstep hpte
  | unmapStart threadId vaddr => exact keptOrCreated_unmapStart hsound2 hstep hpte
  | unmapEnd threadId result =>
    obtain ⟨_, _, _, hmap, hmem, _⟩ := hstep
    exact .of_eq hmap hmem (fun _ ↦ rfl) hpte
  | stutter =>
    have heq : s1 = s2 := hstep
    exact .of_eq (heq ▸ rfl) (heq ▸ rfl) (fun _ ↦ rfl) hpte

end Step

/-! ## Words over whole runs -/

/-- A mapping that stayed through the steps since it was created also stays through the next. -/
theorem CreatedIn.snoc [PhyAddrWidth] {c : AbstractConstants} {s₀ created s2 : AbstractVariables}
    {ps since : List (AbstractStep × AbstractVariables)} {base : Nat} {pte : PageTableEntry}
    (h : CreatedIn c s₀ ps base pte created since) {step : AbstractStep}
    (hpte : s2.mappings base = some pte) :
    CreatedIn c s₀ (ps ++ [(step, s2)]) base pte created (since ++ [(step, s2)]) := by
  obtain ⟨before, s, threadId, rfl, hpath, hstep, hthread, hnew, hcreated, hsince⟩ := h
  refine ⟨before, s, threadId, ?_, hpath, hstep, hthread, hnew, hcreated, ?_⟩
  · rw [List.append_assoc, List.cons_append]
  · intro x hx
    rcases List.mem_append.mp hx with hx | hx
    · exact hsince x hx
    · rw [List.mem_singleton.mp hx]
      exact hpte

/-- In every run, every word of a mapping holds what was last stored there since the mapping
was created, or else what it held then. -/
theorem word_eq_lastStore [PhyAddrWidth] {c : AbstractConstants} {s₀ s : AbstractVariables}
    {ps : List (AbstractStep × AbstractVariables)} (hinit : HlSpec.Init c s₀)
    (hpath : (hlMachine c).Path s₀ ps s) (hsound : s.sound = true) {base : Nat}
    {pte : PageTableEntry} (hpte : s.mappings base = some pte) :
    ∃ created since, CreatedIn c s₀ ps base pte created since ∧
      ∀ idx, memDomainFromEntryContains c.physMemSize (idx * wordSize) base pte →
        s.mem idx = (lastStore idx (since.map Prod.fst)).or (created.mem idx) := by
  induction hpath with
  | nil =>
    rw [hinit.mappings_eq] at hpte
    cases hpte
  | @snoc s1 s2 step ps hpath hstep ih =>
    have hsound1 := HlSpec.NextStep.sound_of_sound hstep hsound
    have hinv : HlInv c s1 := .of_reachable (hpath.reachable hinit) hsound1
    rcases keptOrCreated hinv hsound1 hsound hstep hpte with
      ⟨hold, hwords⟩ | ⟨threadId, rfl, hthread, hnew⟩
    · obtain ⟨created, since, hcreated, hlast⟩ := ih hsound1 hold
      refine ⟨created, since ++ [(step, s2)], hcreated.snoc hpte, fun idx hidx ↦ ?_⟩
      rw [hwords idx hidx, hlast idx hidx, List.map_append, List.map_singleton, lastStore_append,
        Option.or_assoc]
    · refine ⟨s2, [], ⟨ps, s1, threadId, rfl, hpath, hstep, hthread, hnew, hpte, ?_⟩, ?_⟩
      · intro x hx
        cases hx
      · intro idx _
        rw [List.map_nil, lastStore_nil, Option.none_or]

/-- Read your writes: in every run that stays sound, a load that returns a value goes through
the one mapping that contains the address, and returns what was last stored in that word since
the mapping was created, or else what the word held when it was. -/
theorem load_returns_last_store [PhyAddrWidth] (c : AbstractConstants)
    {s₀ s s' : AbstractVariables} {ps : List (AbstractStep × AbstractVariables)}
    (hinit : HlSpec.Init c s₀) (hpath : (hlMachine c).Path s₀ ps s) (hsound : s.sound = true)
    {threadId vaddr v : Nat} {isExec : Bool} {pte : Option (Nat × PageTableEntry)}
    (hload : NextStep c s s' (.readWrite threadId vaddr (.load isExec (.value v)) pte)) :
    ∃ base p created since, pte = some (base, p) ∧ s.mappings base = some p ∧
      between vaddr base (base + p.frame.size) ∧
      (∀ b q, s.mappings b = some q → between vaddr b (b + q.frame.size) → b = base) ∧
      CreatedIn c s₀ ps base p created since ∧
      (lastStore (wordIndexSpec vaddr) (since.map Prod.fst)).or
        (created.mem (wordIndexSpec vaddr)) = some v := by
  unfold NextStep at hload
  rw [if_pos hsound] at hload
  obtain ⟨haligned, base, p, rfl, hmap, hcontains, hv⟩ := stepReadWrite_value hload
  obtain ⟨created, since, hcreated, hlast⟩ := word_eq_lastStore hinit hpath hsound hmap
  have hinv : HlInv c s := .of_reachable (hpath.reachable hinit) hsound
  refine ⟨base, p, created, since, rfl, hmap, hcontains.1, ?_, hcreated, ?_⟩
  · intro b q hb hbetween
    apply hinv.separated.vmemNoOverlap hb hmap
    have hpos := (hinv.separated.pages (.mapping b) _ (holdings_mapping hb)).size_pos
    have hpos' := (hinv.separated.pages (.mapping base) _ (holdings_mapping hmap)).size_pos
    rw [overlap_iff hpos hpos']
    exact ⟨lt_of_le_of_lt hbetween.1 hcontains.1.2, lt_of_le_of_lt hcontains.1.1 hbetween.2⟩
  · rw [← hlast _ (by rwa [wordIndexSpec_mul haligned]), hv]

attribute [local instance] widePhyAddr in
/-- The store of the program is what a load finds. -/
theorem load_returns_last_store_program1 :
    ∃ base p created since, some (4096 * 3, Program1.pte1) = some (base, p) ∧
      Program1.s4.mappings base = some p ∧
      between (4096 * 3) base (base + p.frame.size) ∧
      (∀ b q, Program1.s4.mappings b = some q → between (4096 * 3) b (b + q.frame.size) →
        b = base) ∧
      CreatedIn Program1.c Program1.s1
        [(.mapStart 1 (4096 * 3) Program1.pte1, Program1.s2), (.mapEnd 1 (.ok ()), Program1.s3),
          (.readWrite 1 (4096 * 3) (.store 42 .ok) (some (4096 * 3, Program1.pte1)),
            Program1.s4)] base p created since ∧
      (lastStore (wordIndexSpec (4096 * 3)) (since.map Prod.fst)).or
        (created.mem (wordIndexSpec (4096 * 3))) = some 42 :=
  load_returns_last_store Program1.c Program1.s1_init Program1.path rfl Program1.load

end NrKernel.OS
