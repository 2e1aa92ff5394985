import NrKernel.OS.KernelRefinement
import NrKernel.OS.ReadYourWrites

/-!
# What the hardware returns to a process

Accesses of processes go through TLBs to physical memory, while maps and unmaps change the page
table one memory operation at a time. Still a load returns what was last stored to its address, by
any thread on any core, since the page was mapped there; only a page that is being unmapped may be
read through a stale TLB entry.
-/

namespace NrKernel.OS

open Lib Lib.Machine PageTable CoreState OSVariables PtMemory

/-- The value a step of the hardware stores in a word of the virtual memory. -/
def KernelStep.store? (idx : Nat) : KernelStep → Option Nat
  | .os (.hw _ (.readWrite vaddr _ (.store v .ok) _ _)) =>
    if wordIndexSpec vaddr = idx then some v else none
  | _ => none

/-- The value the last store among some steps of the hardware left in a word. -/
def KernelStep.lastStore (idx : Nat) (steps : List KernelStep) : Option Nat :=
  steps.foldl (fun last step ↦ (step.store? idx).or last) none

private theorem KernelStep.lastStore_append (idx : Nat) (steps : List KernelStep)
    (step : KernelStep) : KernelStep.lastStore idx (steps ++ [step]) =
      (step.store? idx).or (KernelStep.lastStore idx steps) := by
  rw [lastStore, List.foldl_append]
  rfl

/-- The word of physical memory that a page translates an address to. -/
def OSVariables.wordAt {M : Type} (s : OSVariables M) (e : Nat × PageTableEntry) (vaddr : Nat) :
    Nat :=
  s.hw.mem.getD (wordIndexSpec (translate e vaddr)) 0

/-- Loads store nothing. -/
theorem interpRWOp_load_ne_store {isExec : Bool} {result : HWLoadResult}
    {e : Option (Nat × PageTableEntry)} {v : Nat} :
    interpRWOp (.load isExec result) e ≠ .store v .ok := by
  cases result with
  | pagefault => simp [interpRWOp]
  | value v => cases e <;> simp [interpRWOp]

section Words

variable {M : Type} [PhyAddrWidth] [PageTableMemory M] {c : OSConstants}
  {s t s₀ : KernelVariables M} {l : KernelStep} {base : Nat} {pte : PageTableEntry}

/-- In the run `ps` from `s₀`, the page was mapped when a call returned into the state `created`,
and processes saw it after each of the steps `since`. -/
def MappedSince (c : OSConstants) (s₀ : KernelVariables M)
    (ps : List (KernelStep × KernelVariables M)) (base : Nat) (pte : PageTableEntry)
    (created : KernelVariables M) (since : List (KernelStep × KernelVariables M)) : Prop :=
  ∃ before s core ultId, ps = before ++ (.ret core, created) :: since ∧
    (kernelMachine c).Path s₀ before s ∧ KernelNext c s (.ret core) created ∧
    s.os.coreState core = .mapExecuting ultId base pte ∧ s.os.effectiveMappings base = none ∧
    created.os.effectiveMappings base = some pte ∧
    ∀ x ∈ since, x.2.os.effectiveMappings base = some pte

private theorem MappedSince.snoc {ps since : List (KernelStep × KernelVariables M)}
    {created : KernelVariables M} (h : MappedSince c s₀ ps base pte created since)
    (hpte : t.os.effectiveMappings base = some pte) :
    MappedSince c s₀ (ps ++ [(l, t)]) base pte created (since ++ [(l, t)]) := by
  obtain ⟨before, s, core, ultId, rfl, hpath, hstep, hstate, hnew, hcreated, hsince⟩ := h
  refine ⟨before, s, core, ultId, ?_, hpath, hstep, hstate, hnew, hcreated, ?_⟩
  · rw [List.append_assoc, List.cons_append]
  · intro x hx
    rcases List.mem_append.mp hx with hx | hx
    · exact hsince x hx
    · rw [List.mem_singleton.mp hx]
      exact hpte

/-- What processes see satisfies the invariant of the high-level machine. -/
theorem HlInv.of_kernel (hreach : (kernelMachine c).Reachable s) :
    HlInv c.interp (s.os.interp c) := by
  have hinv : KernelInv c s ∧ HlInv c.interp (s.os.interp c) := by
    refine Reachable.invariant (I := fun s ↦ KernelInv c s ∧ HlInv c.interp (s.os.interp c))
      (fun s (hinit : KernelInit c s) ↦ ⟨.of_init hinit, .of_init (Init.refines hinit.os)⟩) ?_
      hreach
    intro s l t h hstep
    have hnext := (KernelNext.osRun h.1 hstep).2
    exact ⟨hnext, h.2.step h.1.osInv.sound hnext.osInv.sound (KernelNext.refines h.1 hstep)⟩
  exact hinv.2

-- A store that the hardware makes in a page that processes see is one that they see: no stale entry
-- of a TLB covers its address.
private theorem store?_readWrite (h : KernelInv c s) {os' : OSVariables M}
    {ultId vaddr' paddr : Nat} {op : HWRWOp} {e : Option (Nat × PageTableEntry)} {core : Core}
    (hstep : StepHW c s.os os' ultId (.readWrite vaddr' paddr op e core))
    (hmap : s.os.effectiveMappings base = some pte) {vaddr : Nat} (halign : aligned vaddr 8)
    (hin : InRegion (base, pte) vaddr) :
    ((OSStep.hw ultId (.readWrite vaddr' paddr op e core)).interp s.os).store?
      (wordIndexSpec vaddr) =
    (KernelStep.os (.hw ultId (.readWrite vaddr' paddr op e core))).store?
      (wordIndexSpec vaddr) := by
  classical
  cases op with
  | load isExec result =>
    apply AbstractStep.store?_eq_none
    exact fun v hv ↦ absurd hv interpRWOp_load_ne_store
  | store v result =>
    cases result with
    | pagefault => rfl
    | ok =>
      obtain ⟨halign', _, hcore, hhw⟩ := hstep.hw
      cases e with
      | none =>
        obtain ⟨_, _, hresult⟩ := hhw
        cases hresult
      | some e =>
        obtain ⟨hcached, hin', _⟩ := hhw
        by_cases hdom : e.1 ∈ s.os.effectiveMappings.dom
        · have hfilter : (some e).filter
              (fun m ↦ decide (m.1 ∈ s.os.effectiveMappings.dom)) = some e := by
            rw [Option.filter_some, if_pos (decide_eq_true hdom)]
          rw [OSStep.interp, hfilter]
          rfl
        · -- through a stale entry only another word is reached
          have hfilter : (some e).filter
              (fun m ↦ decide (m.1 ∈ s.os.effectiveMappings.dom)) = none := by
            rw [Option.filter_some, if_neg (by rw [decide_eq_true_iff]; exact hdom)]
          have hne : wordIndexSpec vaddr' ≠ wordIndexSpec vaddr := by
            intro heq
            have hsame : vaddr' = vaddr := by
              rw [← wordIndexSpec_mul halign', heq, wordIndexSpec_mul halign]
            subst hsame
            obtain ⟨hpage, hsep⟩ :=
              stale_separated h.osInv (.of_reachable h.os) hcore hcached hdom
            apply (hsep base pte hmap).1
            exact regionConflict_of_inRegion hpage (h.osInv.isPage hmap) hin' hin
          rw [OSStep.interp, hfilter]
          exact (if_neg hne).symm

private theorem KernelNext.store?_interp (h : KernelInv c s) (hstep : KernelNext c s l t)
    (hmap : s.os.effectiveMappings base = some pte) {vaddr : Nat} (halign : aligned vaddr 8)
    (hin : InRegion (base, pte) vaddr) :
    (l.interp s).store? (wordIndexSpec vaddr) = l.store? (wordIndexSpec vaddr) := by
  cases hstep with
  | os step os' hother hstep =>
    cases step with
    | hw ultId step =>
      cases step with
      | readWrite => exact store?_readWrite h hstep hmap halign hin
      | _ => rfl
    | unmapEnd core =>
      simp only [KernelStep.interp, OSStep.interp]
      split <;> rfl
    | mapEnd => cases hother
    | _ => rfl
  | retMap r ultId vaddr' pte' hrunning hstate htodo =>
    rw [KernelStep.interp, hstate, hrunning]
    rfl
  | retUnmap r ultId vaddr' result hrunning hstate htodo =>
    rw [KernelStep.interp, hstate]
    rfl
  | retUnmapErr r ultId vaddr' hrunning hstate htodo =>
    rw [KernelStep.interp, hstate]
    rfl
  | _ => rfl

/-- A step that ends a map for processes is the return of a call. -/
theorem KernelNext.of_interp_mapEnd (hstep : KernelNext c s l t) {ultId : Nat}
    {result : Except Unit Unit} (hl : l.interp s = .mapEnd ultId result) :
    ∃ core vaddr p, l = .ret core ∧ s.os.coreState core = .mapExecuting ultId vaddr p := by
  cases hstep with
  | os step os' hother hstep =>
    cases step with
    | hw ultId step =>
      cases step with
      | _ => cases hl
    | unmapEnd core =>
      simp only [KernelStep.interp, OSStep.interp] at hl
      split at hl <;> cases hl
    | mapEnd => cases hother
    | _ => cases hl
  | retMap r ultId' vaddr pte hrunning hstate htodo =>
    rw [KernelStep.interp, hstate, hrunning] at hl
    cases hl
    exact ⟨_, _, _, rfl, hstate⟩
  | retUnmap r ultId vaddr result hrunning hstate htodo =>
    rw [KernelStep.interp, hstate] at hl
    cases hl
  | retUnmapErr r ultId vaddr hrunning hstate htodo =>
    rw [KernelStep.interp, hstate] at hl
    cases hl
  | _ => cases hl

/-- The spec of a step for one page and its words in physical memory. -/
theorem KernelNext.words (h : KernelInv c s) (hhl : HlInv c.interp (s.os.interp c))
    (hstep : KernelNext c s l t) (hpte : t.os.effectiveMappings base = some pte) :
    (s.os.effectiveMappings base = some pte ∧
      ∀ vaddr, aligned vaddr 8 → InRegion (base, pte) vaddr →
        wordIndexSpec (translate (base, pte) vaddr) < c.hw.physMemSize →
        t.os.wordAt (base, pte) vaddr =
          (l.store? (wordIndexSpec vaddr)).getD (s.os.wordAt (base, pte) vaddr)) ∨
    ∃ core ultId, l = .ret core ∧ s.os.coreState core = .mapExecuting ultId base pte ∧
      s.os.effectiveMappings base = none := by
  have hnext := (hstep.osRun h).2
  rcases keptOrCreated hhl h.osInv.sound hnext.osInv.sound (hstep.refines h) hpte with
    ⟨hold, hwords⟩ | ⟨ultId, hl, hthread, hnew⟩
  · left
    refine ⟨hold, fun vaddr halign hin hlt ↦ ?_⟩
    have hcontains : HlSpec.memDomainFromEntryContains c.interp.physMemSize
        (wordIndexSpec vaddr * wordSize) base pte := by
      rw [wordIndexSpec_mul halign]
      exact ⟨hin, hlt⟩
    have hword := hwords _ hcontains
    have ht : (t.os.interp c).mem (wordIndexSpec vaddr) = some (t.os.wordAt (base, pte) vaddr) := by
      rw [OSVariables.wordAt, ← wordIndexSpec_mul halign, wordIndexSpec_mul_wordSize]
      exact hnext.osInv.interpVmem_eq hpte hcontains
    have hs : (s.os.interp c).mem (wordIndexSpec vaddr) = some (s.os.wordAt (base, pte) vaddr) := by
      rw [OSVariables.wordAt, ← wordIndexSpec_mul halign, wordIndexSpec_mul_wordSize]
      exact h.osInv.interpVmem_eq hold hcontains
    rw [ht, hs, hstep.store?_interp h hold halign hin] at hword
    cases hstore : l.store? (wordIndexSpec vaddr) with
    | none =>
      rw [hstore] at hword
      exact Option.some.inj hword
    | some v =>
      rw [hstore] at hword
      exact Option.some.inj hword
  · right
    obtain ⟨core, vaddr, p, rfl, hstate⟩ := hstep.of_interp_mapEnd hl
    have hult : (s.os.coreState core).ultId? = some ultId := by
      rw [hstate]
      rfl
    have hthread' := h.osInv.interpThreadState_core hult
    rw [hstate] at hthread'
    cases hthread.symm.trans hthread'
    exact ⟨core, ultId, rfl, hstate, hnew⟩

/-- In every run, every word of a page that processes see holds what was last stored there since
the page was mapped, or else what it held then. -/
theorem word_eq_lastStore_of_kernel {ps : List (KernelStep × KernelVariables M)}
    (hinit : KernelInit c s₀) (hpath : (kernelMachine c).Path s₀ ps s)
    (hpte : s.os.effectiveMappings base = some pte) :
    ∃ created since, MappedSince c s₀ ps base pte created since ∧
      ∀ vaddr, aligned vaddr 8 → InRegion (base, pte) vaddr →
        wordIndexSpec (translate (base, pte) vaddr) < c.hw.physMemSize →
        s.os.wordAt (base, pte) vaddr =
          (KernelStep.lastStore (wordIndexSpec vaddr) (since.map Prod.fst)).getD
            (created.os.wordAt (base, pte) vaddr) := by
  induction hpath with
  | nil =>
    have hempty := (Init.refines hinit.os).mappings_eq
    have hpte : (s₀.os.interp c).mappings base = some pte := hpte
    rw [hempty] at hpte
    cases hpte
  | @snoc s t l ps hpath hstep ih =>
    have hreach := hpath.reachable (show (kernelMachine c).init s₀ from hinit)
    have hstep : KernelNext c s l t := hstep
    rcases hstep.words (.of_reachable hreach) (.of_kernel hreach) hpte with
      ⟨hold, hwords⟩ | ⟨core, ultId, rfl, hstate, hnew⟩
    · obtain ⟨created, since, hcreated, hlast⟩ := ih hold
      refine ⟨created, since ++ [(l, t)], hcreated.snoc hpte, fun vaddr halign hin hlt ↦ ?_⟩
      rw [hwords vaddr halign hin hlt, hlast vaddr halign hin hlt, List.map_append,
        List.map_singleton, KernelStep.lastStore_append]
      cases l.store? (wordIndexSpec vaddr) with
      | none => rfl
      | some v => rfl
    · refine ⟨t, [], ⟨ps, s, core, ultId, rfl, hpath, hstep, hstate, hnew, hpte, ?_⟩, ?_⟩
      · intro x hx
        cases hx
      · intro vaddr _ _ _
        rfl

/-- A call of a map that makes its memory operations and returns. -/
theorem KernelNext.exists_mapRun {os : OSVariables M} {core : Core} {ultId vaddr : Nat}
    {result : Except Unit Unit} {pt₀ pt : PTDir} (todo : List (MemOp × M))
    (hstate : os.coreState core = .mapExecuting ultId vaddr pte) :
    ∃ steps, (kernelMachine c).Run ⟨os, pt₀, some ⟨core, todo, result, pt⟩⟩ steps
      ⟨(os.setPt (memAfter os.hw.globalPt todo)).setCore core .idle, pt, none⟩ := by
  have hret : todo.length ≤ 1 → KernelNext c ⟨os, pt₀, some ⟨core, todo, result, pt⟩⟩ (.ret core)
      ⟨(os.setPt (memAfter os.hw.globalPt todo)).setCore core .idle, pt, none⟩ :=
    fun hle ↦ .retMap ⟨core, todo, result, pt⟩ ultId vaddr pte rfl hstate hle
  induction todo generalizing os with
  | nil => exact ⟨_, .single (hret (Nat.zero_le 1))⟩
  | cons op todo ih =>
    cases todo with
    | nil => exact ⟨_, .single (hret (Nat.le_refl 1))⟩
    | cons last rest =>
      have hop : KernelNext c ⟨os, pt₀, some ⟨core, op :: last :: rest, result, pt⟩⟩ (.memOp core)
          ⟨os.setPt op.2, pt₀, some ⟨core, last :: rest, result, pt⟩⟩ :=
        .memOpMap ⟨core, _, result, pt⟩ ultId vaddr pte op last rest rfl hstate rfl
      obtain ⟨steps, hrun⟩ := @ih (os.setPt op.2) hstate
        fun hle ↦ .retMap ⟨core, _, result, pt⟩ ultId vaddr pte rfl hstate hle
      exact ⟨_, .cons hop hrun⟩

end Words

section Access

variable {M : Type} [PtMemoryOps M] [PhyAddrWidth] {c : HWConstants} {s : HWVariables M}
  {vaddr paddr value base : Nat} {p : PageTableEntry} {core : Core}

/-- A store through a cached writable mapping. -/
theorem stepReadWrite_store (halign : aligned vaddr 8) (hcore : validCore c core)
    (hcached : s.tlb core base = some p) (hin : between vaddr base (base + p.frame.size))
    (hpaddr : paddr = p.frame.base + (vaddr - base)) (hlt : wordIndexSpec paddr < s.mem.length)
    (huser : p.flags.isSupervisor = false) (hwritable : p.flags.isWritable = true) :
    Hardware.stepReadWrite c s { s with mem := s.mem.set (wordIndexSpec paddr) value } vaddr paddr
      (.store value .ok) (some (base, p)) core := by
  refine ⟨halign, rfl, hcore, hcached, hin, hpaddr, ?_⟩
  exact (if_pos ⟨hlt, huser, hwritable⟩).mpr ⟨rfl, rfl⟩

/-- A load through a cached mapping. -/
theorem stepReadWrite_load (halign : aligned vaddr 8) (hcore : validCore c core)
    (hcached : s.tlb core base = some p) (hin : between vaddr base (base + p.frame.size))
    (hpaddr : paddr = p.frame.base + (vaddr - base)) (hlt : wordIndexSpec paddr < s.mem.length)
    (huser : p.flags.isSupervisor = false)
    (hvalue : s.mem.getD (wordIndexSpec paddr) 0 = value) :
    Hardware.stepReadWrite c s s vaddr paddr (.load false (.value value)) (some (base, p))
      core := by
  refine ⟨halign, rfl, hcore, hcached, hin, hpaddr, rfl, ?_⟩
  exact (if_pos ⟨hlt, huser, fun h ↦ by cases h⟩).mpr (by rw [hvalue])

end Access

/-- What the hardware returns is what was stored. In every run of the kernel, a load of a process
that returns a value goes through a page that is being unmapped at that moment, or it returns what
was last stored to the address since the page was mapped there, by whichever thread and through
whichever TLB, or else what the page held when it was mapped. -/
theorem kernel_load_returns_last_store {M : Type} [PhyAddrWidth] [PageTableMemory M]
    (c : OSConstants) {s₀ s s' : KernelVariables M} {ps : List (KernelStep × KernelVariables M)}
    (hinit : KernelInit c s₀) (hpath : (kernelMachine c).Path s₀ ps s)
    {ultId vaddr paddr v : Nat} {isExec : Bool} {pte : Option (Nat × PageTableEntry)} {core : Core}
    (hload : KernelNext c s
      (.os (.hw ultId (.readWrite vaddr paddr (.load isExec (.value v)) pte core))) s') :
    ∃ base p, pte = some (base, p) ∧ s.os.hw.tlb core base = some p ∧
      (s.os.Unmapping base ∨
        s.os.effectiveMappings base = some p ∧
        ∃ created since, MappedSince c s₀ ps base p created since ∧
          v = (KernelStep.lastStore (wordIndexSpec vaddr) (since.map Prod.fst)).getD
            (created.os.wordAt (base, p) vaddr)) := by
  have hreach := hpath.reachable (show (kernelMachine c).init s₀ from hinit)
  have hinv := KernelInv.of_reachable hreach
  have hstep : ∃ os', StepHW c s.os os' ultId
      (.readWrite vaddr paddr (.load isExec (.value v)) pte core) := by
    cases hload with
    | os _ os' _ hstep => exact ⟨os', hstep⟩
  obtain ⟨os', hstep⟩ := hstep
  obtain ⟨halign, _, hcore, hhw⟩ := hstep.hw
  cases pte with
  | none =>
    obtain ⟨_, _, hresult⟩ := hhw
    cases hresult
  | some e =>
    obtain ⟨base, p⟩ := e
    obtain ⟨hcached, hin, hpaddr, _, hresult⟩ := hhw
    refine ⟨base, p, rfl, hcached, ?_⟩
    have hok : wordIndexSpec paddr < s.os.hw.mem.length ∧
        v = s.os.hw.mem.getD (wordIndexSpec paddr) 0 := by
      split at hresult
      · rename_i hok
        cases hresult
        exact ⟨hok.1, rfl⟩
      · cases hresult
    have htlb : TlbCoherent c s.os := .of_reachable hinv.os
    by_cases hu : s.os.Unmapping base
    · exact .inl hu
    · right
      have hmap : s.os.effectiveMappings base = some p := by
        rw [effectiveMappings_of_not_unmapping hu]
        rcases htlb.coherent core hcore base p hcached with hmap | ⟨k, hk⟩
        · exact hmap
        · exact absurd (.of_coreState (unmapVaddr?_of_unmapped? hk)) hu
      obtain ⟨created, since, hsince, hlast⟩ := word_eq_lastStore_of_kernel hinit hpath hmap
      refine ⟨hmap, created, since, hsince, ?_⟩
      rw [← hlast vaddr halign hin (by rw [← hinv.mem_length, translate, ← hpaddr]; exact hok.1)]
      rw [hok.2, OSVariables.wordAt, translate, ← hpaddr]

section Example

open ExampleRun

attribute [local instance] widePhyAddr

private theorem exists_cached_path : ∃ (m : BumpMemory) (pt : PTDir)
    (ps : List (KernelStep × KernelVariables BumpMemory)),
    (kernelMachine c).Path ⟨state BumpMemory.initial PMap.empty .idle noShootdown, rootDir, none⟩ ps
      ⟨state m cached .idle noShootdown, pt, none⟩ := by
  obtain ⟨_, _, _, hstart⟩ := mapOpStart
  obtain ⟨hinv, hinterp, _⟩ := SpecPt.Init.tree BumpMemory.initial_init
  have hpages : 3 ≤ allocAvailablePages BumpMemory.initial := by decide
  obtain ⟨result, mem, record, pt, hcall, hcourse, _⟩ :=
    mapFrame_onCourse ⟨hinv, hinterp⟩ hpages mapStart.enabled.1 core0 0
  have hview : interpPtMem (memAfter BumpMemory.initial record) =
      PMap.empty.insert vaddr smallPage := by
    cases hcourse with
    | map _ _ _ before m hresult htodo hhidden hno hview =>
      have htodo : record = before ++ [(.write, m)] := htodo
      rw [htodo, memAfter_snoc, hview, initial_empty]
    | mapRefused _ _ _ hresult htodo hoverlaps =>
      obtain ⟨b, p, hb, _⟩ := hoverlaps
      rw [initial_empty] at hb
      cases hb
  let waiting : OSVariables BumpMemory :=
    state BumpMemory.initial PMap.empty (.mapWaiting 0 vaddr smallPage) noShootdown
  have hrequest : KernelNext c
      ⟨state BumpMemory.initial PMap.empty .idle noShootdown, rootDir, none⟩ (.os _)
      ⟨waiting, rootDir, none⟩ := .os _ _ rfl mapStart
  have hcalled : KernelNext c ⟨waiting, rootDir, none⟩ (.call core0)
      ⟨waiting.setCore core0 (.mapExecuting 0 vaddr smallPage), rootDir,
        some ⟨core0, record, result, pt⟩⟩ :=
    .callMap core0 0 vaddr smallPage result mem record pt ((validCore_iff _).mpr rfl) rfl
      hstart.lock rfl hpages hcall
  have hreturned : ∃ steps, (kernelMachine c).Run ⟨waiting.setCore core0 (.mapExecuting 0 vaddr
      smallPage), rootDir, some ⟨core0, record, result, pt⟩⟩ steps _ :=
    KernelNext.exists_mapRun record (coreState_setCore waiting core0 _)
  obtain ⟨steps, hrun⟩ := hreturned
  have hend : ((waiting.setCore core0 (.mapExecuting 0 vaddr smallPage)).setPt
      (memAfter BumpMemory.initial record)).setCore core0 .idle =
      state (memAfter BumpMemory.initial record) PMap.empty .idle noShootdown := by
    simp only [waiting, setCore, setPt, state, PMap.insert_insert]
  have hfill : KernelNext c
      ⟨state (memAfter BumpMemory.initial record) PMap.empty .idle noShootdown, pt, none⟩ (.os _)
      ⟨state (memAfter BumpMemory.initial record) cached .idle noShootdown, pt, none⟩ :=
    .os _ _ rfl (tlbFill hview)
  obtain ⟨ps, hpath⟩ := Path.exists_extend
    (((Path.nil _).snoc hrequest).snoc hcalled : (kernelMachine c).Path _ _ _) hrun
  have hpath : (kernelMachine c).Path _ ps ⟨_, pt, none⟩ := hpath
  rw [show (waiting.setCore core0 (.mapExecuting 0 vaddr smallPage)).hw.globalPt =
    BumpMemory.initial from rfl, hend] at hpath
  exact ⟨_, pt, _, hpath.snoc hfill⟩

/-- The process stores to its page and loads what it stored. -/
theorem kernel_load_returns_last_store_42 :
    ∃ (ps : List (KernelStep × KernelVariables BumpMemory)) (s : KernelVariables BumpMemory),
    s.os.hw.mem = (List.replicate 4096 0).set (wordIndexSpec 0x7000) 42 ∧
    ∃ base p, some (vaddr, smallPage) = some (base, p) ∧ s.os.hw.tlb core0 base = some p ∧
      (s.os.Unmapping base ∨
        s.os.effectiveMappings base = some p ∧
        ∃ created since, MappedSince c
          ⟨state BumpMemory.initial PMap.empty .idle noShootdown, rootDir, none⟩
          (ps ++ [(.os (.hw 0 (.readWrite vaddr 0x7000 (.store 42 .ok) (some (vaddr, smallPage))
            core0)), s)]) base p created since ∧
          42 = (KernelStep.lastStore (wordIndexSpec vaddr) (since.map Prod.fst)).getD
            (created.os.wordAt (base, p) vaddr)) := by
  obtain ⟨m, pt, ps, hpath⟩ := exists_cached_path
  let before : OSVariables BumpMemory := state m cached .idle noShootdown
  let after : OSVariables BumpMemory :=
    { before with hw := { before.hw with mem := before.hw.mem.set (wordIndexSpec 0x7000) 42 } }
  have hlength : before.hw.mem.length = 4096 := List.length_replicate
  have hindex : wordIndexSpec 0x7000 < before.hw.mem.length := by
    rw [hlength]
    decide
  have hcached : cached vaddr = some smallPage := PMap.insert_self _ _ _
  have hstore : NextStep c before after
      (.hw 0 (.readWrite vaddr 0x7000 (.store 42 .ok) (some (vaddr, smallPage)) core0)) := {
    valid := show 0 < 1 by decide
    enabled := .inl rfl
    not_ptMemOp := fun h ↦ by cases h
    hw := stepReadWrite_store (by decide) ((validCore_iff _).mpr rfl) hcached (by decide)
      (by decide) hindex rfl rfl
    pt := show (⟨after.hw.globalPt⟩ : PageTableVariables BumpMemory) = _ from rfl
    coreStates_eq := rfl
    shootdown_eq := rfl
    sound_eq := rfl }
  have hload : NextStep c after after (.hw 0 (.readWrite vaddr 0x7000 (.load false (.value 42))
      (some (vaddr, smallPage)) core0)) := {
    valid := show 0 < 1 by decide
    enabled := .inl rfl
    not_ptMemOp := fun h ↦ by cases h
    hw := stepReadWrite_load (by decide) ((validCore_iff _).mpr rfl) hcached (by decide)
      (by decide) (by rw [List.length_set]; exact hindex) rfl
      (by rw [Table.getD_set _ _ _ hindex, if_pos rfl])
    pt := rfl
    coreStates_eq := rfl
    shootdown_eq := rfl
    sound_eq := rfl }
  have hinit : KernelInit c
      ⟨state BumpMemory.initial PMap.empty .idle noShootdown, rootDir, none⟩ :=
    ⟨init, List.length_replicate, rfl, rfl⟩
  have hstored := hpath.snoc (show (kernelMachine c).step _ _ ⟨after, pt, none⟩ from
    KernelNext.os _ _ rfl hstore)
  exact ⟨ps, ⟨after, pt, none⟩, rfl,
    kernel_load_returns_last_store c hinit hstored (.os _ _ rfl hload)⟩

end Example

end NrKernel.OS
