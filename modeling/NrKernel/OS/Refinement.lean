import NrKernel.Lib.Table
import NrKernel.OS.HighLevelInvariant
import NrKernel.OS.TlbInvariant

/-!
# The OS refines the high-level machine

Every step of the OS is, as a process sees it, a step of the high-level machine: starting an
unmap takes its mapping away, ending a map adds one, a memory access goes through the mapping
the process sees, and everything else is invisible. An access through a stale TLB entry is one
to an address without a mapping: the frame behind it belongs to nobody else until the unmap
has ended.
-/

namespace NrKernel.OS

open Lib PageTable CoreState OSVariables

/-! ## Words and frames -/

private theorem eight_dvd_of_page {e : Nat × PageTableEntry} (h : IsPage e) :
    8 ∣ e.1 ∧ 8 ∣ e.2.frame.base := by
  have hsize : 8 ∣ e.2.frame.size := Dvd.dvd.trans ⟨512, rfl⟩ h.base_dvd_size
  exact ⟨hsize.trans ((aligned_iff_dvd _ _).mp h.vaddr_aligned),
    hsize.trans ((aligned_iff_dvd _ _).mp h.frame_aligned)⟩

/-- The physical address a page translates a virtual one to. -/
def translate (e : Nat × PageTableEntry) (vaddr : Nat) : Nat := e.2.frame.base + (vaddr - e.1)

/-- A virtual address in the region of a page. -/
def InRegion (e : Nat × PageTableEntry) (vaddr : Nat) : Prop :=
  between vaddr e.1 (e.1 + e.2.frame.size)

/-- Aligned addresses that two pages translate to one word have one physical address, in both
frames. -/
theorem translate_eq_of_word_eq {e₁ e₂ : Nat × PageTableEntry} (h₁ : IsPage e₁) (h₂ : IsPage e₂)
    {v₁ v₂ : Nat} (ha₁ : aligned v₁ 8) (ha₂ : aligned v₂ 8) (hin₁ : InRegion e₁ v₁)
    (hin₂ : InRegion e₂ v₂)
    (heq : wordIndexSpec (translate e₁ v₁) = wordIndexSpec (translate e₂ v₂)) :
    translate e₁ v₁ = translate e₂ v₂ ∧ FrameConflict e₁ e₂ := by
  have hdvd : ∀ {e : Nat × PageTableEntry} {v : Nat}, IsPage e → aligned v 8 →
      8 ∣ translate e v := by
    intro e v he hv
    exact Nat.dvd_add (eight_dvd_of_page he).2
      (Nat.dvd_sub ((aligned_iff_dvd _ _).mp hv) (eight_dvd_of_page he).1)
  have htr : translate e₁ v₁ = translate e₂ v₂ := by
    rw [← Nat.div_mul_cancel (hdvd h₁ ha₁), ← Nat.div_mul_cancel (hdvd h₂ ha₂)]
    exact congrArg (· * 8) heq
  obtain ⟨hle₁, hlt₁⟩ := hin₁
  obtain ⟨hle₂, hlt₂⟩ := hin₂
  have hframes : e₁.2.frame.base < e₂.2.frame.base + e₂.2.frame.size ∧
      e₂.2.frame.base < e₁.2.frame.base + e₁.2.frame.size := by
    unfold translate at htr
    omega
  exact ⟨htr, (overlap_iff h₁.size_pos h₂.size_pos).mpr hframes⟩

/-- Two pages that cover a common address have overlapping regions. -/
theorem regionConflict_of_inRegion {e₁ e₂ : Nat × PageTableEntry} (h₁ : IsPage e₁)
    (h₂ : IsPage e₂) {v : Nat} (hin₁ : InRegion e₁ v) (hin₂ : InRegion e₂ v) :
    RegionConflict e₁ e₂ := by
  refine (overlap_iff h₁.size_pos h₂.size_pos).mpr ?_
  exact ⟨lt_of_le_of_lt hin₁.1 hin₂.2, lt_of_le_of_lt hin₂.1 hin₁.2⟩

/-! ## The memory a process sees -/

section Vmem

variable {M : Type} [PtMemoryOps M] [PhyAddrWidth] {c : OSConstants} {s s1 s2 : OSVariables M}

/-- An effective mapping is one of a page. -/
theorem OsInv.isPage (h : OsInv c s) {base : Nat} {pte : PageTableEntry}
    (hmap : s.effectiveMappings base = some pte) : IsPage (base, pte) :=
  h.separated.pages (.mapping base) _ (holdings_mapping hmap)

/-- Only one mapping that a process sees covers an address. -/
theorem OsInv.covering_unique (h : OsInv c s) {b₁ b₂ : Nat} {p₁ p₂ : PageTableEntry}
    (h₁ : s.effectiveMappings b₁ = some p₁) (h₂ : s.effectiveMappings b₂ = some p₂) {v : Nat}
    (hin₁ : InRegion (b₁, p₁) v) (hin₂ : InRegion (b₂, p₂) v) : (b₁, p₁) = (b₂, p₂) := by
  have hbase : b₁ = b₂ := h.separated.vmemNoOverlap h₁ h₂
    (regionConflict_of_inRegion (h.isPage h₁) (h.isPage h₂) hin₁ hin₂)
  subst hbase
  rw [h₁] at h₂
  rw [Option.some.inj h₂]

/-- The word a process sees is read through the mapping that covers it. -/
theorem OsInv.interpVmem_eq (h : OsInv c s) {base : Nat} {pte : PageTableEntry}
    (hmap : s.effectiveMappings base = some pte) {idx : Nat}
    (hcontains : HlSpec.memDomainFromEntryContains c.interp.physMemSize (idx * wordSize) base pte) :
    s.interpVmem c idx =
      some (s.hw.mem.getD (wordIndexSpec (translate (base, pte) (idx * wordSize))) 0) := by
  have hspec := Classical.epsilon_spec
    (p := fun m : Nat × PageTableEntry ↦ s.effectiveMappings m.1 = some m.2 ∧
      between (idx * wordSize) m.1 (m.1 + m.2.frame.size))
    ⟨(base, pte), hmap, hcontains.1⟩
  have hchoose : chooseMapping s.effectiveMappings (idx * wordSize) = (base, pte) :=
    h.covering_unique hspec.1 hmap hspec.2 hcontains.1
  unfold interpVmem
  rw [if_pos ⟨base, pte, hmap, hcontains⟩]
  simp only [hchoose, translate]

private theorem interpVmem_eq_none {idx : Nat}
    (h : idx ∉ HlSpec.memDomainFromMappings c.interp.physMemSize s.effectiveMappings) :
    s.interpVmem c idx = none :=
  if_neg h

/-- A process sees exactly the words that are mapped. -/
theorem interpVmem_dom (s : OSVariables M) (c : OSConstants) : (s.interpVmem c).dom =
    HlSpec.memDomainFromMappings c.interp.physMemSize s.effectiveMappings := by
  ext idx
  by_cases h : idx ∈ HlSpec.memDomainFromMappings c.interp.physMemSize s.effectiveMappings
  · refine iff_of_true ?_ h
    show s.interpVmem c idx ≠ none
    rw [interpVmem, if_pos (show HlSpec.memDomainFromMappingsContains _ _ _ from h)]
    exact Option.some_ne_none _
  · exact iff_of_false (fun hdom ↦ hdom (interpVmem_eq_none h)) h

/-- The words of a mapping that stays are the same as long as physical memory is. -/
theorem interpVmem_of_subset (h1 : OsInv c s1) (h2 : OsInv c s2) (hmem : s2.hw.mem = s1.hw.mem)
    (hsub : ∀ base pte, s1.effectiveMappings base = some pte →
      s2.effectiveMappings base = some pte) {idx : Nat} (hidx : idx ∈ (s1.interpVmem c).dom) :
    s2.interpVmem c idx = s1.interpVmem c idx := by
  rw [interpVmem_dom] at hidx
  obtain ⟨base, pte, hmap, hcontains⟩ := hidx
  rw [h1.interpVmem_eq hmap hcontains, h2.interpVmem_eq (hsub base pte hmap) hcontains, hmem]

private theorem interpVmem_congr (hmem : s2.hw.mem = s1.hw.mem)
    (heff : s2.effectiveMappings = s1.effectiveMappings) : s2.interpVmem c = s1.interpVmem c := by
  unfold interpVmem
  rw [hmem, heff]

/-- Steps that change neither memory nor what is mapped or requested are stutters. -/
theorem interp_congr (hmem : s2.hw.mem = s1.hw.mem)
    (heff : s2.effectiveMappings = s1.effectiveMappings)
    (hthreads : s2.interpThreadState c = s1.interpThreadState c) (hsound : s2.sound = s1.sound) :
    s1.interp c = s2.interp c := by
  unfold OSVariables.interp
  rw [interpVmem_congr hmem heff, heff, hthreads, hsound]

end Vmem

/-! ## Memory accesses -/

section ReadWrite

variable {M : Type} [PtMemoryOps M] [PhyAddrWidth] {c : OSConstants} {s1 s2 : OSVariables M}
  {ultId vaddr paddr : Nat} {op : HWRWOp} {core : Core}

/-- What the refinement of an access needs of the step of the hardware around it. -/
theorem StepHW.interp_frame {step : HWStep} (h : StepHW c s1 s2 ultId step) :
    s2.effectiveMappings = s1.effectiveMappings ∧
      s2.interpThreadState c = s1.interpThreadState c := by
  have hview := interpPtMem_of_stutter h.pt
  refine ⟨?_, interpThreadState_congr h.coreStates_eq hview⟩
  apply effectiveMappings_eq
  · intro v
    unfold Unmapping
    rw [h.coreStates_eq]
  · exact fun v _ ↦ congrFun hview v

/-- A thread whose core is idle has no request in flight. -/
theorem interpThreadState_of_idle (hult : c.validUlt ultId)
    (hidle : s1.coreState (c.ultCore ultId) = .idle) :
    s1.interpThreadState c ultId = some .empty := by
  apply interpThreadState_of_ne hult
  rw [hidle]
  exact fun h ↦ by cases h

/-- Threads access memory only while their core is idle. -/
theorem StepHW.idle {pte : Option (Nat × PageTableEntry)}
    (h : StepHW c s1 s2 ultId (.readWrite vaddr paddr op pte core)) :
    s1.coreState (c.ultCore ultId) = .idle := by
  rcases h.enabled with hidle | ⟨_, _, _, heq⟩ | ⟨_, _, heq⟩
  · exact hidle
  · cases heq
  · cases heq

/-- An access to an address that the process does not see mapped is undefined and changes no
memory it sees. -/
theorem readWrite_unmapped (halign : aligned vaddr 8) {step : HWStep}
    (hstep : StepHW c s1 s2 ultId step) (hidle : s1.coreState (c.ultCore ultId) = .idle)
    (hno : ∀ base pte, s1.effectiveMappings base = some pte → ¬InRegion (base, pte) vaddr)
    (hmem : s2.interpVmem c = s1.interpVmem c) :
    HlSpec.stepReadWrite c.interp (s1.interp c) (s2.interp c) ultId vaddr (interpRWOp op none)
      none := by
  obtain ⟨heff, hthreads⟩ := hstep.interp_frame
  refine ⟨hstep.sound_eq, halign, heff, hstep.valid, interpThreadState_of_idle hstep.valid hidle,
    hthreads, ?_, hmem, ?_⟩
  · rintro ⟨base, pte, hmap, hcontains⟩
    rw [wordIndexSpec_mul halign] at hcontains
    exact hno base pte hmap hcontains.1
  · cases op with
    | store newValue result =>
      cases result with
      | ok => rfl
      | pagefault => rfl
    | load isExec result =>
      cases result with
      | value v => rfl
      | pagefault => rfl

/-- A store through a mapping that the process sees changes the one word it stores in. -/
theorem interpVmem_store (h1 : OsInv c s1) (h2 : OsInv c s2)
    (heff : s2.effectiveMappings = s1.effectiveMappings) (halign : aligned vaddr 8)
    {e : Nat × PageTableEntry} (hmap : s1.effectiveMappings e.1 = some e.2)
    (hin : InRegion e vaddr) {v : Nat}
    (hlt : wordIndexSpec (translate e vaddr) < s1.hw.mem.length)
    (hmemlen : s1.hw.mem.length = c.interp.physMemSize)
    (hmem : s2.hw.mem = s1.hw.mem.set (wordIndexSpec (translate e vaddr)) v) :
    s2.interpVmem c = (s1.interpVmem c).insert (wordIndexSpec vaddr) v := by
  have hcontains : HlSpec.memDomainFromEntryContains c.interp.physMemSize
      (wordIndexSpec vaddr * wordSize) e.1 e.2 := by
    rw [wordIndexSpec_mul halign]
    exact ⟨hin, hmemlen ▸ hlt⟩
  ext idx : 1
  by_cases hidx : idx = wordIndexSpec vaddr
  · subst hidx
    rw [PMap.insert_self, h2.interpVmem_eq (heff ▸ hmap) hcontains, wordIndexSpec_mul halign, hmem,
      Table.getD_set _ _ _ hlt, if_pos rfl]
  · rw [PMap.insert_of_ne _ _ hidx]
    by_cases hdom : idx ∈ HlSpec.memDomainFromMappings c.interp.physMemSize s1.effectiveMappings
    · obtain ⟨b, p, hb, hbcontains⟩ := hdom
      rw [h1.interpVmem_eq hb hbcontains, h2.interpVmem_eq (heff ▸ hb) hbcontains, hmem,
        Table.getD_set _ _ _ hlt, if_neg]
      intro heq
      -- one physical word is one virtual word: the frames, and so the mappings, are one
      have hwaligned : aligned (idx * wordSize) 8 := Nat.mul_mod_left idx 8
      obtain ⟨htr, hconf⟩ := translate_eq_of_word_eq (h1.isPage hb) (h1.isPage hmap) hwaligned
        halign hbcontains.1 hin heq
      have hbase : b = e.1 := h1.separated.pmemNoOverlap b e.1 p e.2 hb hmap hconf
      subst hbase
      rw [hmap] at hb
      cases hb
      have hlo : e.1 ≤ idx * wordSize := hbcontains.1.1
      have hlo' : e.1 ≤ vaddr := hin.1
      have hv : idx * wordSize = vaddr := by
        unfold translate at htr
        omega
      apply hidx
      rw [← hv, wordIndexSpec_mul_wordSize]
    · rw [interpVmem_eq_none hdom, interpVmem_eq_none (heff ▸ hdom)]

/-- An access through a mapping that the process sees. -/
theorem readWrite_mapped (h1 : OsInv c s1) (h2 : OsInv c s2)
    (hmemlen : s1.hw.mem.length = c.interp.physMemSize) {e : Nat × PageTableEntry}
    (hstep : StepHW c s1 s2 ultId (.readWrite vaddr paddr op (some e) core))
    (hmap : s1.effectiveMappings e.1 = some e.2) :
    HlSpec.stepReadWrite c.interp (s1.interp c) (s2.interp c) ultId vaddr (interpRWOp op (some e))
      (some e) := by
  obtain ⟨heff, hthreads⟩ := hstep.interp_frame
  obtain ⟨halign, _, _, hcached, hin, hpaddr, hop⟩ := hstep.hw
  have hpaddr : paddr = translate e vaddr := hpaddr
  subst hpaddr
  refine ⟨hstep.sound_eq, halign, heff, hstep.valid,
    interpThreadState_of_idle hstep.valid hstep.idle, hthreads, hmap, hin, ?_⟩
  cases op with
  | store newValue result =>
    simp only at hop
    split at hop
    · rename_i hok
      obtain ⟨rfl, hmem⟩ := hop
      show if _ then _ else _
      rw [if_pos (by rw [← hmemlen]; exact hok)]
      exact ⟨rfl, interpVmem_store h1 h2 heff halign hmap hin hok.1 hmemlen hmem⟩
    · rename_i hbad
      obtain ⟨rfl, hmem⟩ := hop
      show if _ then _ else _
      rw [if_neg (by rw [← hmemlen]; exact hbad)]
      exact ⟨rfl, interpVmem_congr hmem heff⟩
  | load isExec result =>
    obtain ⟨hmem, hop⟩ := hop
    have hsame : s2.interpVmem c = s1.interpVmem c := interpVmem_congr hmem heff
    split at hop
    · rename_i hok
      subst hop
      refine ⟨hsame, ?_⟩
      rw [if_pos (by rw [← hmemlen]; exact hok)]
      refine ⟨_, rfl, ?_⟩
      have hcontains : HlSpec.memDomainFromEntryContains c.interp.physMemSize
          (wordIndexSpec vaddr * wordSize) e.1 e.2 := by
        rw [wordIndexSpec_mul halign]
        exact ⟨hin, hmemlen ▸ hok.1⟩
      show s1.interpVmem c _ = _
      rw [h1.interpVmem_eq hmap hcontains, wordIndexSpec_mul halign]
    · rename_i hbad
      subst hop
      refine ⟨hsame, ?_⟩
      rw [if_neg (by rw [← hmemlen]; exact hbad)]

/-- What an access through a stale TLB entry may store in belongs to an unmap in flight: no
mapping that the process sees covers the address or has that frame. -/
theorem stale_separated (h : OsInv c s1) (htlb : TlbCoherent c s1)
    (hcore : validCore c.hw core) {e : Nat × PageTableEntry}
    (hcached : s1.hw.tlb core e.1 = some e.2) (hgone : e.1 ∉ s1.effectiveMappings.dom) :
    IsPage e ∧ ∀ base pte, s1.effectiveMappings base = some pte →
      ¬RegionConflict e (base, pte) ∧ ¬FrameConflict e (base, pte) := by
  obtain ⟨id, a, hthread, hremoved⟩ : ∃ id a, s1.interpThreadState c id = some a ∧
      a.removed? = some e := by
    rcases htlb.coherent core hcore e.1 e.2 hcached with hpt | ⟨k, hk⟩
    · obtain ⟨o, ho⟩ := h.exists_holder hpt
      cases o with
      | mapping base =>
        obtain ⟨hbase, hmap⟩ := holdings_mapping_eq_some ho
        rw [← hbase] at hmap
        exact absurd (PMap.mem_dom_of_eq hmap) hgone
      | thread id =>
        obtain ⟨a, ha, hremoved⟩ := holdings_thread_eq_some ho
        exact ⟨id, a, ha, hremoved⟩
    · have hv := vaddr?_of_unmapVaddr? (unmapVaddr?_of_unmapped? hk)
      obtain ⟨id, hid⟩ := ultId?_of_vaddr? hv
      refine ⟨id, _, h.interpThreadState_core hid, ?_⟩
      cases hst : s1.coreState k with
      | unmapOpExecuting =>
        rw [hst] at hk
        cases hk
        rfl
      | unmapOpDone =>
        rw [hst] at hk
        cases hk
        rfl
      | unmapShootdownWaiting =>
        rw [hst] at hk
        cases hk
        rfl
      | _ =>
        rw [hst] at hk
        cases hk
  have hinstalled : holdings AbstractArguments.removed? s1.effectiveMappings
      (s1.interpThreadState c) (.thread id) = some e := by
    rw [holdings_thread hthread, hremoved]
  have hheld : holdings AbstractArguments.entry? s1.effectiveMappings
      (s1.interpThreadState c) (.thread id) = some e := by
    rw [holdings_thread hthread, AbstractArguments.entry?_of_removed? hremoved]
  refine ⟨h.separated.pages _ _ hheld, fun base pte hmap ↦ ⟨?_, ?_⟩⟩
  · exact h.separated.installed (.thread id) (.mapping base) _ _ Holder.noConfusion hinstalled
      (holdings_mapping hmap)
  · exact h.separated.frames (.thread id) (.mapping base) _ _ Holder.noConfusion hheld
      (holdings_mapping hmap)

/-- An access through a stale TLB entry. -/
theorem readWrite_stale (h1 : OsInv c s1) (h2 : OsInv c s2) (htlb : TlbCoherent c s1)
    {e : Nat × PageTableEntry}
    (hstep : StepHW c s1 s2 ultId (.readWrite vaddr paddr op (some e) core))
    (hgone : e.1 ∉ s1.effectiveMappings.dom) :
    HlSpec.stepReadWrite c.interp (s1.interp c) (s2.interp c) ultId vaddr (interpRWOp op none)
      none := by
  obtain ⟨heff, _⟩ := hstep.interp_frame
  have hidle := hstep.idle
  obtain ⟨halign, _, hcore, hcached, hin, hpaddr, hop⟩ := hstep.hw
  have hpaddr : paddr = translate e vaddr := hpaddr
  subst hpaddr
  obtain ⟨hpage, hsep⟩ := stale_separated h1 htlb hcore hcached hgone
  apply readWrite_unmapped halign hstep hidle
  · intro base pte hmap hin'
    exact (hsep base pte hmap).1 (regionConflict_of_inRegion hpage (h1.isPage hmap) hin hin')
  · cases op with
    | load isExec result => exact interpVmem_congr hop.1 heff
    | store newValue result =>
      simp only at hop
      split at hop
      · rename_i hok
        -- the word stored in is none of those that the process sees
        ext idx : 1
        by_cases hdom : idx ∈ HlSpec.memDomainFromMappings c.interp.physMemSize
            s1.effectiveMappings
        · obtain ⟨b, p, hb, hbcontains⟩ := hdom
          rw [h1.interpVmem_eq hb hbcontains, h2.interpVmem_eq (heff ▸ hb) hbcontains, hop.2,
            Table.getD_set _ _ _ hok.1, if_neg]
          intro heq
          have hwaligned : aligned (idx * wordSize) 8 := Nat.mul_mod_left idx 8
          exact (hsep b p hb).2 (translate_eq_of_word_eq hpage (h1.isPage hb) halign hwaligned
            hin hbcontains.1 heq.symm).2
        · rw [interpVmem_eq_none hdom, interpVmem_eq_none (heff ▸ hdom)]
      · exact interpVmem_congr hop.2 heff

/-- Every memory access of the OS is one of the high-level machine. -/
theorem readWrite_refines (h1 : OsInv c s1) (h2 : OsInv c s2) (htlb : TlbCoherent c s1)
    (hmemlen : s1.hw.mem.length = c.interp.physMemSize) {pte : Option (Nat × PageTableEntry)}
    (hstep : StepHW c s1 s2 ultId (.readWrite vaddr paddr op pte core)) :
    HlSpec.NextStep c.interp (s1.interp c) (s2.interp c)
      ((OSStep.hw ultId (.readWrite vaddr paddr op pte core)).interp s1) := by
  classical
  unfold HlSpec.NextStep
  rw [if_pos (show (s1.interp c).sound = true from h1.sound)]
  cases pte with
  | none =>
    obtain ⟨halign, _, _, hno, hmem, hop⟩ := hstep.hw
    apply readWrite_unmapped halign hstep hstep.idle
    · intro base pte hmap hin
      exact hno ⟨base, pte, (interpPtMem_of_effective hmap).1, hin⟩
    · exact interpVmem_congr hmem hstep.interp_frame.1
  | some e =>
    by_cases hin : e.1 ∈ s1.effectiveMappings.dom
    · have hfilter :
          (some e).filter (fun m ↦ decide (m.1 ∈ s1.effectiveMappings.dom)) = some e := by
        rw [Option.filter_some, if_pos (decide_eq_true hin)]
      obtain ⟨_, _, hcore, hcached, _⟩ := hstep.hw
      have hmap : s1.effectiveMappings e.1 = some e.2 := by
        obtain ⟨p, hp⟩ := (PMap.mem_dom _ _).mp hin
        have hpt := (interpPtMem_of_effective hp).1
        rcases htlb.coherent core hcore e.1 e.2 hcached with hcoh | ⟨k, hk⟩
        · rw [hpt] at hcoh
          rw [hp, Option.some.inj hcoh]
        · rw [h1.unmapped k e.1 _ hk] at hpt
          cases hpt
      have h := readWrite_mapped h1 h2 hmemlen hstep hmap
      rw [OSStep.interp, hfilter]
      exact h
    · have hfilter : (some e).filter (fun m ↦ decide (m.1 ∈ s1.effectiveMappings.dom)) = none := by
        rw [Option.filter_some, if_neg (by rw [decide_eq_true_iff]; exact hin)]
      rw [OSStep.interp, hfilter]
      exact readWrite_stale h1 h2 htlb hstep hin

end ReadWrite

/-! ## Requests -/

section Requests

variable {M : Type} [PtMemoryOps M] [PhyAddrWidth] {c : OSConstants} {s s1 s2 : OSVariables M}

private theorem StepMapStart.refines {ultId vaddr : Nat} {pte : PageTableEntry}
    (hstep : StepMapStart c s1 s2 ultId vaddr pte) (h1 : OsInv c s1) :
    HlSpec.NextStep c.interp (s1.interp c) (s2.interp c) (.mapStart ultId vaddr pte) := by
  unfold HlSpec.NextStep
  rw [if_pos (show (s1.interp c).sound = true from h1.sound)]
  refine ⟨hstep.enabled.toStepMapEnabled, hstep.valid,
    interpThreadState_of_idle hstep.valid hstep.idle, fun _ ↦ ?_, fun hbad ↦ ?_⟩
  · exact ⟨hstep.interpThreadState_eq, interpVmem_congr hstep.hw.1 hstep.effectiveMappings_eq,
      hstep.effectiveMappings_eq, hstep.sound_eq.1⟩
  · exact absurd hstep.sound_eq.2.interp hbad

private theorem StepMapEnd.refines {core : Core} {result : Except Unit Unit} {ultId vaddr : Nat}
    {pte : PageTableEntry} (hstep : StepMapEnd c s1 s2 core result ultId vaddr pte)
    (h1 : OsInv c s1) :
    HlSpec.NextStep c.interp (s1.interp c) (s2.interp c)
      ((OSStep.mapEnd core result).interp s1) := by
  have h2 := hstep.osInv h1
  have hlabel : (OSStep.mapEnd core result).interp s1 = .mapEnd ultId result := by
    simp only [OSStep.interp, hstep.state]
  unfold HlSpec.NextStep
  rw [if_pos (show (s1.interp c).sound = true from h1.sound), hlabel]
  have hult : (s1.coreState core).ultId? = some ultId := by
    rw [hstep.state]
    rfl
  refine ⟨hstep.sound_eq, (h1.valid_ids core ultId hult).1, hstep.interpThreadState_eq h1, vaddr,
    pte, hstep.interpThreadState_core h1, fun hov ↦ ?_, fun hno ↦ ?_⟩
  · rcases hstep.effective_cases h1 with ⟨_, hresult, heff⟩ | ⟨hno, _, _⟩
    · exact ⟨hresult, heff, interpVmem_congr hstep.hw.1 heff⟩
    · exact absurd hov hno
  · rcases hstep.effective_cases h1 with ⟨hov, _, _⟩ | ⟨_, hresult, heff⟩
    · exact absurd hov hno
    · refine ⟨hresult, heff, fun idx hidx ↦ ?_, interpVmem_dom s2 c⟩
      apply interpVmem_of_subset h1 h2 hstep.hw.1 _ hidx
      intro base p hb
      rw [heff, PMap.insert_of_ne _ _ fun heq ↦ hno ⟨base, p, hb, overlap_of_base_eq heq.symm⟩, hb]

private theorem StepUnmapStart.refines {ultId vaddr : Nat}
    (hstep : StepUnmapStart c s1 s2 ultId vaddr) (h1 : OsInv c s1) :
    HlSpec.NextStep c.interp (s1.interp c) (s2.interp c) (.unmapStart ultId vaddr) := by
  have h2 := hstep.osInv h1
  have heff := hstep.effectiveMappings_eq
  unfold HlSpec.NextStep
  rw [if_pos (show (s1.interp c).sound = true from h1.sound)]
  refine ⟨hstep.enabled, hstep.valid, interpThreadState_of_idle hstep.valid hstep.idle,
    fun _ ↦ ?_, fun hbad ↦ absurd hstep.sound_interp hbad⟩
  refine ⟨hstep.interpThreadState_eq, ?_, ?_, hstep.sound_eq.1⟩
  · show if (s1.effectiveMappings vaddr).isNone then _ else _
    split
    · rename_i hnone
      have hsame : s2.effectiveMappings = s1.effectiveMappings := by
        rw [heff, PMap.remove_of_eq_none (Option.isNone_iff_eq_none.mp hnone)]
      exact ⟨hsame, interpVmem_congr hstep.hw.1 hsame⟩
    · refine ⟨heff, interpVmem_dom s2 c, fun idx hidx ↦ ?_⟩
      refine (interpVmem_of_subset h2 h1 hstep.hw.1.symm (fun base p hb ↦ ?_) hidx).symm
      rw [heff] at hb
      exact ((PMap.remove_eq_some _ _ _ _).mp hb).2
  · show (s2.interpVmem c).dom = _
    rw [interpVmem_dom, heff]
    rfl

private theorem StepUnmapEnd.refines {core : Core} (hstep : StepUnmapEnd c s1 s2 core)
    (h1 : OsInv c s1) :
    HlSpec.NextStep c.interp (s1.interp c) (s2.interp c) ((OSStep.unmapEnd core).interp s1) := by
  obtain ⟨ultId, vaddr, result, hst⟩ := hstep.state_cases
  have hlabel : (OSStep.unmapEnd core).interp s1 = .unmapEnd ultId (result.map fun _ ↦ ()) := by
    rcases hst with ⟨hst, _⟩ | ⟨hst, _⟩
    · simp only [OSStep.interp, hst]
    · simp only [OSStep.interp, hst]
  obtain ⟨hult, hunmapped, hargs⟩ :=
    StepUnmapEnd.request_of_state (hst.imp And.left And.left) s1.interpPtMem
  have heff := hstep.effectiveMappings_eq h1 hunmapped
  have hthread := h1.interpThreadState_core hult
  rw [hargs] at hthread
  unfold HlSpec.NextStep
  rw [if_pos (show (s1.interp c).sound = true from h1.sound), hlabel]
  refine ⟨(h1.valid_ids core ultId hult).1, hstep.interpThreadState_eq h1 hult, hstep.sound_eq,
    heff, interpVmem_congr hstep.hw.1 heff, vaddr, result.toOption, hthread, ?_⟩
  cases result with
  | ok pte => rfl
  | error => rfl

/-- A step that a process does not see is a stutter. -/
theorem refines_stutter (h1 : OsInv c s1) (hmem : s2.hw.mem = s1.hw.mem)
    (hinterp : s2.effectiveMappings = s1.effectiveMappings ∧
      s2.interpThreadState c = s1.interpThreadState c) (hsound : s2.sound = s1.sound) :
    HlSpec.NextStep c.interp (s1.interp c) (s2.interp c) .stutter := by
  unfold HlSpec.NextStep
  rw [if_pos (show (s1.interp c).sound = true from h1.sound)]
  exact interp_congr hmem hinterp.1 hinterp.2 hsound

/-- A step in which no core moves and the view of the page table stays is a stutter, if memory
stays too. -/
theorem refines_stutter_of_view (h1 : OsInv c s1) (hmem : s2.hw.mem = s1.hw.mem)
    (hstates : s2.coreStates = s1.coreStates) (hview : s2.interpPtMem = s1.interpPtMem)
    (hsound : s2.sound = s1.sound) :
    HlSpec.NextStep c.interp (s1.interp c) (s2.interp c) .stutter := by
  refine refines_stutter h1 hmem ⟨?_, interpThreadState_congr hstates hview⟩ hsound
  apply effectiveMappings_eq
  · intro v
    unfold Unmapping
    rw [hstates]
  · exact fun v _ ↦ congrFun hview v

/-- Every step of the OS from a state with its full memory is the interpreted step of the
high-level machine. -/
theorem NextStep.refines (h1 : OsInv c s1) (htlb : TlbCoherent c s1)
    (hmemlen : s1.hw.mem.length = c.interp.physMemSize) {step : OSStep}
    (hstep : NextStep c s1 s2 step) :
    HlSpec.NextStep c.interp (s1.interp c) (s2.interp c) (step.interp s1) := by
  have h2 := h1.step hstep
  cases step with
  | hw ultId step =>
    have hstep : StepHW c s1 s2 ultId step := hstep
    have hview := interpPtMem_of_stutter hstep.pt
    cases step with
    | readWrite vaddr paddr op pte core => exact readWrite_refines h1 h2 htlb hmemlen hstep
    | ptMemOp => exact absurd rfl hstep.not_ptMemOp
    | tlbFill vaddr pte core =>
      have hfill : Hardware.StepTLBFill c.hw s1.hw s2.hw vaddr pte core := hstep.hw
      exact refines_stutter_of_view h1 hfill.unchanged.mem_eq hstep.coreStates_eq hview
        hstep.sound_eq
    | tlbEvict vaddr core =>
      have hevict : Hardware.StepTLBEvict c.hw s1.hw s2.hw vaddr core := hstep.hw
      exact refines_stutter_of_view h1 hevict.unchanged.mem_eq hstep.coreStates_eq hview
        hstep.sound_eq
  | mapStart ultId vaddr pte => exact StepMapStart.refines hstep h1
  | mapOpStart core =>
    obtain ⟨_, _, _, hstep⟩ := hstep
    exact refines_stutter h1 hstep.hw.1 (hstep.interp_eq h1) hstep.sound_eq
  | mapEnd core result =>
    obtain ⟨_, _, _, hstep⟩ := hstep
    exact hstep.refines h1
  | unmapStart ultId vaddr => exact StepUnmapStart.refines hstep h1
  | unmapOpStart core result =>
    obtain ⟨_, _, hstep⟩ := hstep
    exact refines_stutter h1 hstep.hw.1 (hstep.interp_eq h1) hstep.sound_eq
  | unmapOpEnd core =>
    obtain ⟨_, _, _, hstep⟩ := hstep
    exact refines_stutter h1 hstep.hw.1 (hstep.interp_eq h1) hstep.sound_eq
  | unmapInitiateShootdown core =>
    obtain ⟨_, _, _, hstep⟩ := hstep
    exact refines_stutter h1 hstep.hw.1 (hstep.interp_eq h1) hstep.sound_eq
  | ackShootdownIPI core =>
    have hstep : StepAckShootdownIPI s1 s2 core := hstep
    exact refines_stutter_of_view h1 hstep.hw.1 hstep.coreStates_eq
      (interpPtMem_of_stutter hstep.pt) hstep.sound_eq
  | unmapEnd core => exact StepUnmapEnd.refines hstep h1
  | viewStutter core =>
    have hstep : StepViewStutter c s1 s2 core := hstep
    exact refines_stutter_of_view h1 hstep.hw.1 hstep.coreStates_eq
      (interpPtMem_of_viewStutter hstep.pt) hstep.sound_eq

/-- Initially a process sees no memory and no mappings, and its threads are idle. -/
theorem Init.refines (h : Init c s) : HlSpec.Init c.interp (s.interp c) := by
  have hinv := OsInv.of_init h
  have heff := h.effectiveMappings_eq
  have hmem : s.interpVmem c = PMap.empty := by
    ext idx : 1
    apply interpVmem_eq_none
    rintro ⟨base, pte, hmap, _⟩
    rw [heff] at hmap
    cases hmap
  constructor
  · exact hmem
  · exact heff
  · intro id hid
    exact interpThreadState_of_idle hid (h.states_idle _ (h.ult_core id hid))
  · constructor
    · intro id
      show id < c.ultNo ↔ (s.interpThreadState c id).isSome
      unfold interpThreadState
      split
      · rename_i hid
        exact iff_of_true hid rfl
      · rename_i hid
        exact iff_of_false hid Bool.false_ne_true
    · show s.effectiveMappings.dom.Finite
      rw [heff]
      exact PMap.finite_dom_empty
    · show (s.interpVmem c).dom.Finite
      rw [hmem]
      exact PMap.finite_dom_empty
  · exact h.sound

/-- The OS refines the high-level machine: initial states are initial states of its
interpretation, and every step from a reachable state with the memory the constants promise is
the interpreted step of the high-level machine, for any number of cores and any order of
steps. -/
theorem osMachine_refines_hlMachine (c : OSConstants) :
    (∀ s : OSVariables M, Init c s → HlSpec.Init c.interp (s.interp c)) ∧
    ∀ (s1 s2 : OSVariables M) (step : OSStep), (osMachine c).Reachable s1 →
      s1.hw.mem.length = c.hw.physMemSize → NextStep c s1 s2 step →
      HlSpec.NextStep c.interp (s1.interp c) (s2.interp c) (step.interp s1) :=
  ⟨fun _ hinit ↦ Init.refines hinit, fun _ _ _ hreach hmemlen hstep ↦
    hstep.refines (.of_reachable hreach) (.of_reachable hreach) hmemlen⟩

end Requests

attribute [local instance] widePhyAddr in
/-- A process asks to unmap the page it mapped and a core cached. -/
theorem osMachine_refines_hlMachine_unmapStart : ∃ m : BumpMemory,
    HlSpec.NextStep ExampleRun.c.interp
      ((ExampleRun.state m ExampleRun.cached .idle ExampleRun.noShootdown).interp ExampleRun.c)
      ((ExampleRun.state m ExampleRun.cached (.unmapWaiting 0 ExampleRun.vaddr)
        ExampleRun.noShootdown).interp ExampleRun.c) (.unmapStart 0 ExampleRun.vaddr) := by
  obtain ⟨m, _, _, _, hm⟩ := exists_mapped
  exact ⟨m, (osMachine_refines_hlMachine ExampleRun.c).2 _ _ _ (ExampleRun.reachable_cached hm)
    List.length_replicate ExampleRun.unmapStart⟩

end NrKernel.OS
