import Mathlib.Data.Set.Finite.Lattice
import NrKernel.OS.Separation

/-!
# The invariant of the high-level machine

While the requests of a process are sound, frames, virtual regions and requests stay
separated and the word memory is exactly as large as the mappings say
(`spec_t/hlspec.rs:501–583`, `spec_t/hlproof.rs`).
-/

namespace NrKernel.OS

open Lib PageTable

namespace HlSpec

/-! ## The invariant of the source -/

/-- `pmem_no_overlap` (`spec_t/hlspec.rs:501–507`). -/
def pmemNoOverlap (mappings : Mappings) : Prop :=
  ∀ bs1 bs2 p1 p2, mappings bs1 = some p1 → mappings bs2 = some p2 →
    overlap p1.frame p2.frame → bs1 = bs2

/-- `inflight_map_no_overlap_pmem` (`spec_t/hlspec.rs:509–523`). -/
def inflightMapNoOverlapPmem (inflightargs : Set AbstractArguments) (mappings : Mappings) : Prop :=
  ∀ b ∈ inflightargs,
    match b with
    | .map _ pte => ¬candidateMappingOverlapsExistingPmem mappings pte
    | _ => True

/-- `inflight_map_no_overlap_inflight_pmem` (`spec_t/hlspec.rs:525–538`). -/
def inflightMapNoOverlapInflightPmem (inflightargs : Set AbstractArguments) : Prop :=
  ∀ b ∈ inflightargs,
    match b with
    | .map _ pte => ¬candidateMappingOverlapsInflightPmem (inflightargs \ {b}) pte
    | _ => True

/-- `mappings_frame_sizes_over_zero` (`spec_t/hlspec.rs:540–544`). -/
def mappingsFrameSizesOverZero (mappings : Mappings) : Prop :=
  ∀ base pte, mappings base = some pte → 0 < pte.frame.size

/-- `inflight_mem_size_over_zero` (`spec_t/hlspec.rs:546–555`). -/
def inflightMemSizeOverZero (inflightargs : Set AbstractArguments) : Prop :=
  ∀ b ∈ inflightargs,
    match b with
    | .map _ pte => 0 < pte.frame.size
    | _ => True

/-- `if_map_then_unique` (`spec_t/hlspec.rs:557–566`). -/
def ifMapThenUnique (threadState : PMap Nat AbstractArguments) (id : Nat) : Prop :=
  match threadState id with
  | some (.map vaddr pte) => .map vaddr pte ∉ (threadState.remove id).values
  | _ => True

/-- `inflight_maps_unique` (`spec_t/hlspec.rs:568–570`). -/
def inflightMapsUnique (threadState : PMap Nat AbstractArguments) : Prop :=
  ∀ a ∈ threadState.dom, ifMapThenUnique threadState a

/-- `inv` (`spec_t/hlspec.rs:572–583`). -/
structure Inv (c : AbstractConstants) (s : AbstractVariables) : Prop where
  wf : Wf c s
  pmem_no_overlap : pmemNoOverlap s.mappings
  inflight_map_no_overlap_pmem : inflightMapNoOverlapPmem s.threadState.values s.mappings
  inflight_map_no_overlap_inflight_pmem : inflightMapNoOverlapInflightPmem s.threadState.values
  mappings_frame_sizes_over_zero : mappingsFrameSizesOverZero s.mappings
  inflight_mem_size_over_zero : inflightMemSizeOverZero s.threadState.values
  inflight_maps_unique : inflightMapsUnique s.threadState

end HlSpec

open HlSpec AbstractArguments

/-! ## Pages and words -/

/-- Pages are whole numbers of base pages. -/
theorem IsPage.base_dvd_size {e : Nat × PageTableEntry} (h : IsPage e) :
    l3EntrySize ∣ e.2.frame.size := by
  rcases h.size with hsize | hsize | hsize
  · rw [hsize]
  · rw [hsize]
    exact Dvd.intro_left 512 rfl
  · rw [hsize]
    exact ⟨512 * 512, by decide⟩

/-- A page is not empty. -/
theorem IsPage.size_pos {e : Nat × PageTableEntry} (h : IsPage e) : 0 < e.2.frame.size := by
  rcases h.size with hsize | hsize | hsize
  · rw [hsize]; decide
  · rw [hsize]; decide
  · rw [hsize]; decide

/-- The word of an aligned address starts at that address. -/
theorem wordIndexSpec_mul {vaddr : Nat} (h : aligned vaddr 8) :
    wordIndexSpec vaddr * wordSize = vaddr :=
  Nat.div_mul_cancel ((aligned_iff_dvd vaddr 8).mp h)

/-- The address a word starts at belongs to that word. -/
theorem wordIndexSpec_mul_wordSize (idx : Nat) : wordIndexSpec (idx * wordSize) = idx :=
  Nat.mul_div_cancel idx (by decide)

/-- The word of an aligned address is mapped when the address is, in a frame that exists. -/
theorem wordIndexSpec_mem_memDomain {physMemSize vaddr base : Nat} {mappings : Mappings}
    {pte : PageTableEntry} (haligned : aligned vaddr 8) (hmap : mappings base = some pte)
    (hcontains : memDomainFromEntryContains physMemSize vaddr base pte) :
    wordIndexSpec vaddr ∈ memDomainFromMappings physMemSize mappings := by
  refine ⟨base, pte, hmap, ?_⟩
  rwa [wordIndexSpec_mul haligned]

/-- Finitely many mappings cover finitely many words. -/
theorem finite_memDomainFromMappings (physMemSize : Nat) {mappings : Mappings}
    (h : mappings.dom.Finite) : (memDomainFromMappings physMemSize mappings).Finite := by
  apply (h.biUnion fun base _ ↦ Set.finite_lt_nat (base + sizeOf? (mappings base))).subset
  rintro idx ⟨base, pte, hmap, ⟨_, hlt⟩, _⟩
  refine Set.mem_biUnion (PMap.mem_dom_of_eq hmap) ?_
  have hsize : sizeOf? (mappings base) = pte.frame.size := by
    rw [hmap]
    rfl
  have hle : idx ≤ idx * wordSize := Nat.le_mul_of_pos_right idx (by decide)
  show idx < base + sizeOf? (mappings base)
  rw [hsize]
  omega

/-! ## What a memory access does -/

/-- An access leaves mappings and requests alone, and the memory too unless it is a store
through a writable user mapping of an existing frame. -/
theorem HlSpec.stepReadWrite_cases {c : AbstractConstants} {s1 s2 : AbstractVariables}
    {threadId vaddr : Nat} {op : RWOp} {pte : Option (Nat × PageTableEntry)}
    (h : stepReadWrite c s1 s2 threadId vaddr op pte) :
    s2.sound = s1.sound ∧ s2.mappings = s1.mappings ∧ s2.threadState = s1.threadState ∧
      ((s2.mem = s1.mem ∧ ∀ v, op ≠ .store v .ok) ∨
        ∃ v base p, op = .store v .ok ∧ s1.mappings base = some p ∧
          memDomainFromEntryContains c.physMemSize vaddr base p ∧
          s2.mem = s1.mem.insert (wordIndexSpec vaddr) v) := by
  obtain ⟨hsound, _, hmap, _, _, hthreads, hrest⟩ := h
  refine ⟨hsound, hmap, hthreads, ?_⟩
  cases pte with
  | none =>
    obtain ⟨_, hmem, hop⟩ := hrest
    refine .inl ⟨hmem, fun v heq ↦ ?_⟩
    subst heq
    cases hop
  | some m =>
    obtain ⟨base, p⟩ := m
    obtain ⟨hbase, hbetween, hop⟩ := hrest
    cases op with
    | load isExec result => exact .inl ⟨hop.1, fun v heq ↦ RWOp.noConfusion heq⟩
    | store newValue result =>
      simp only at hop
      split at hop
      · rename_i hok
        obtain ⟨rfl, hmem⟩ := hop
        exact .inr ⟨newValue, base, p, rfl, hbase, ⟨hbetween, hok.1⟩, hmem⟩
      · obtain ⟨rfl, hmem⟩ := hop
        refine .inl ⟨hmem, fun v heq ↦ ?_⟩
        cases heq

/-- A load that returns a value reads the word of a mapped address. -/
theorem HlSpec.stepReadWrite_value {c : AbstractConstants} {s1 s2 : AbstractVariables}
    {threadId vaddr v : Nat} {isExec : Bool} {pte : Option (Nat × PageTableEntry)}
    (h : stepReadWrite c s1 s2 threadId vaddr (.load isExec (.value v)) pte) :
    aligned vaddr 8 ∧ ∃ base p, pte = some (base, p) ∧ s1.mappings base = some p ∧
      memDomainFromEntryContains c.physMemSize vaddr base p ∧
      s1.mem (wordIndexSpec vaddr) = some v := by
  obtain ⟨_, haligned, _, _, _, _, hrest⟩ := h
  refine ⟨haligned, ?_⟩
  cases pte with
  | none =>
    obtain ⟨_, _, hop⟩ := hrest
    cases hop
  | some m =>
    obtain ⟨base, p⟩ := m
    obtain ⟨hbase, hbetween, _, hop⟩ := hrest
    split at hop
    · rename_i hok
      obtain ⟨w, hw, hmem⟩ := hop
      cases hw
      exact ⟨base, p, rfl, hbase, ⟨hbetween, hok.1⟩, hmem⟩
    · cases hop

/-! ## The inductive invariant -/

/-- What every sound state satisfies: the frames and regions of mappings and requests are
separated, and the memory has exactly the words that are mapped. -/
structure HlInv (c : AbstractConstants) (s : AbstractVariables) : Prop where
  wf : Wf c s
  separated : Separated s.mappings s.threadState
  mem_dom : s.mem.dom = memDomainFromMappings c.physMemSize s.mappings

namespace HlInv

variable {c : AbstractConstants} {s1 s2 : AbstractVariables}

/-- The invariant holds at the start. -/
theorem of_init (h : HlSpec.Init c s1) : HlInv c s1 := by
  constructor
  · exact h.wf
  · rw [h.mappings_eq]
    apply Separated.of_idle
    intro id a ha
    have hid := (h.wf.threads id).mpr (Option.isSome_iff_exists.mpr ⟨a, ha⟩)
    rw [h.threads_idle id hid] at ha
    exact (Option.some.inj ha).symm
  · rw [h.mem_eq, h.mappings_eq]
    ext idx
    constructor
    · exact fun hidx ↦ absurd rfl hidx
    · rintro ⟨base, pte, hmap, _⟩
      cases hmap

/-- A thread that exists may change its request. -/
theorem wf_insert (h : HlInv c s1) {id : Nat} (hid : validThread c id) (a : AbstractArguments) :
    ∀ id', id' < c.threadNo ↔ (s1.threadState.insert id a id').isSome := by
  intro id'
  by_cases heq : id' = id
  · rw [heq, PMap.insert_self]
    exact iff_of_true hid rfl
  · rw [PMap.insert_of_ne _ _ heq]
    exact h.wf.threads id'

private theorem step_readWrite (h : HlInv c s1) {threadId vaddr : Nat} {op : RWOp}
    {pte : Option (Nat × PageTableEntry)}
    (hstep : stepReadWrite c s1 s2 threadId vaddr op pte) : HlInv c s2 := by
  have haligned := hstep.2.1
  obtain ⟨_, hmap, hthreads, hmem⟩ := stepReadWrite_cases hstep
  have hdom : s2.mem.dom = s1.mem.dom := by
    rcases hmem with ⟨hmem, _⟩ | ⟨v, base, p, _, hbase, hcontains, hmem⟩
    · rw [hmem]
    · rw [hmem, PMap.dom_insert]
      apply Set.insert_eq_of_mem
      rw [h.mem_dom]
      exact wordIndexSpec_mem_memDomain haligned hbase hcontains
  constructor
  · exact ⟨hthreads ▸ h.wf.threads, hmap ▸ h.wf.mappings_finite, hdom ▸ h.wf.mem_finite⟩
  · rw [hmap, hthreads]
    exact h.separated
  · rw [hdom, hmap]
    exact h.mem_dom

/-- A step that only changes the request of a thread. -/
theorem step_thread (h : HlInv c s1) {id : Nat} {a : AbstractArguments}
    (hid : validThread c id) (hthreads : s2.threadState = s1.threadState.insert id a)
    (hmap : s2.mappings = s1.mappings) (hmem : s2.mem = s1.mem)
    (hsep : Separated s1.mappings (s1.threadState.insert id a)) : HlInv c s2 := by
  constructor
  · refine ⟨?_, hmap ▸ h.wf.mappings_finite, hmem ▸ h.wf.mem_finite⟩
    rw [hthreads]
    exact h.wf_insert hid a
  · rw [hmap, hthreads]
    exact hsep
  · rw [hmem, hmap]
    exact h.mem_dom

/-- A step that changes the mappings along with the request of a thread. -/
theorem step_mappings (h : HlInv c s1) {id : Nat} {a : AbstractArguments}
    (hid : validThread c id) (hthreads : s2.threadState = s1.threadState.insert id a)
    (hfinite : s2.mappings.dom.Finite)
    (hdom : s2.mem.dom = memDomainFromMappings c.physMemSize s2.mappings)
    (hsep : Separated s2.mappings (s1.threadState.insert id a)) : HlInv c s2 := by
  constructor
  · refine ⟨?_, hfinite, ?_⟩
    · rw [hthreads]
      exact h.wf_insert hid a
    · rw [hdom]
      exact finite_memDomainFromMappings _ hfinite
  · rw [hthreads]
    exact hsep
  · exact hdom

private theorem step_mapEnd (h : HlInv c s1) {threadId : Nat} {result : Except Unit Unit}
    (hstep : stepMapEnd c s1 s2 threadId result) : HlInv c s2 := by
  obtain ⟨_, hid, hthreads, vaddr, pte, hthread, herr, hok⟩ := hstep
  by_cases hv : candidateMappingOverlapsExistingVmem s1.mappings vaddr pte
  · obtain ⟨_, hmap, hmem⟩ := herr hv
    exact h.step_thread hid hthreads hmap hmem (h.separated.finish _)
  · obtain ⟨_, hmap, _, hdom⟩ := hok hv
    apply h.step_mappings hid hthreads _ hdom
    · rw [hmap]
      exact h.separated.mapEnd hthread hv
    · rw [hmap]
      exact PMap.finite_dom_insert h.wf.mappings_finite _ _

private theorem step_unmapStart (h : HlInv c s1) (hsound : s2.sound = true) {threadId vaddr : Nat}
    (hstep : stepUnmapStart c s1 s2 threadId vaddr) : HlInv c s2 := by
  obtain ⟨_, hid, _, hok, hbad⟩ := hstep
  by_cases hs : stepUnmapSound s1.threadState.values vaddr (sizeOf? (s1.mappings vaddr))
  · obtain ⟨hthreads, hchange, _, _⟩ := hok hs
    cases hpte : s1.mappings vaddr with
    | none =>
      rw [hpte] at hs hthreads
      rw [if_pos (by rw [hpte]; rfl)] at hchange
      exact h.step_thread hid hthreads hchange.1 hchange.2 (h.separated.unmapStart_none _ hs)
    | some pte =>
      rw [hpte] at hs hthreads
      rw [if_neg (by rw [hpte]; exact Bool.false_ne_true)] at hchange
      obtain ⟨hmap, hdom, _⟩ := hchange
      apply h.step_mappings hid hthreads _ hdom
      · rw [hmap]
        exact h.separated.unmapStart _ hpte hs
      · rw [hmap]
        exact PMap.finite_dom_remove h.wf.mappings_finite _
  · exact absurd ((hbad hs).symm.trans hsound) Bool.false_ne_true

private theorem step_unmapEnd (h : HlInv c s1) {threadId : Nat} {result : Except Unit Unit}
    (hstep : stepUnmapEnd c s1 s2 threadId result) : HlInv c s2 := by
  obtain ⟨hid, hthreads, _, hmap, hmem, _⟩ := hstep
  exact h.step_thread hid hthreads hmap hmem (h.separated.finish _)

variable [PhyAddrWidth]

private theorem step_mapStart (h : HlInv c s1) (hsound : s2.sound = true) {threadId vaddr : Nat}
    {pte : PageTableEntry} (hstep : stepMapStart c s1 s2 threadId vaddr pte) : HlInv c s2 := by
  obtain ⟨henabled, hid, _, hok, hbad⟩ := hstep
  by_cases hs : HlSpec.StepMapSound s1.mappings s1.threadState.values vaddr pte
  · obtain ⟨hthreads, hmem, hmap, _⟩ := hok hs
    exact h.step_thread hid hthreads hmap hmem (h.separated.mapStart _ henabled.isPage hs)
  · exact absurd ((hbad hs).symm.trans hsound) Bool.false_ne_true

/-- Every step into a sound state keeps the invariant. -/
theorem step (h : HlInv c s1) (hsound1 : s1.sound = true) (hsound2 : s2.sound = true)
    {step : AbstractStep} (hstep : HlSpec.NextStep c s1 s2 step) : HlInv c s2 := by
  unfold HlSpec.NextStep at hstep
  rw [if_pos hsound1] at hstep
  cases step with
  | readWrite threadId vaddr op pte => exact h.step_readWrite hstep
  | mapStart threadId vaddr pte => exact h.step_mapStart hsound2 hstep
  | mapEnd threadId result => exact h.step_mapEnd hstep
  | unmapStart threadId vaddr => exact h.step_unmapStart hsound2 hstep
  | unmapEnd threadId result => exact h.step_unmapEnd hstep
  | stutter => exact (show s1 = s2 from hstep) ▸ h

end HlInv

/-- The machine never becomes sound again. -/
theorem HlSpec.NextStep.sound_of_sound [PhyAddrWidth] {c : AbstractConstants}
    {s1 s2 : AbstractVariables} {step : AbstractStep} (hstep : HlSpec.NextStep c s1 s2 step)
    (hsound : s2.sound = true) : s1.sound = true := by
  by_contra hne
  unfold HlSpec.NextStep at hstep
  rw [if_neg hne] at hstep
  exact absurd (hstep.symm.trans hsound) Bool.false_ne_true

/-- The invariant holds wherever the machine is sound. -/
theorem HlInv.of_reachable [PhyAddrWidth] {c : AbstractConstants} {s : AbstractVariables}
    (hreach : (hlMachine c).Reachable s) (hsound : s.sound = true) : HlInv c s := by
  refine hreach.invariant (I := fun s ↦ s.sound = true → HlInv c s) ?_ ?_ hsound
  · exact fun s hinit _ ↦ .of_init hinit
  · intro s1 step s2 ih hstep hsound2
    have hsound1 := HlSpec.NextStep.sound_of_sound hstep hsound2
    exact (ih hsound1).step hsound1 hsound2 hstep

/-! ## From separation to the invariant of the source -/

namespace Separated

variable {mappings : Mappings} {threads : PMap Nat AbstractArguments}

/-- Mappings with overlapping frames are one. -/
theorem pmemNoOverlap (h : Separated mappings threads) : pmemNoOverlap mappings := by
  intro bs1 bs2 p1 p2 h1 h2 hov
  exact Holder.mapping.inj
    (h.frames.holder_unique (holdings_mapping h1) (holdings_mapping h2) hov)

/-- Mappings that cover a common address are one. -/
theorem vmemNoOverlap (h : Separated mappings threads) {b₁ b₂ : Nat} {p₁ p₂ : PageTableEntry}
    (h₁ : mappings b₁ = some p₁) (h₂ : mappings b₂ = some p₂)
    (hov : overlap ⟨b₁, p₁.frame.size⟩ ⟨b₂, p₂.frame.size⟩) : b₁ = b₂ :=
  Holder.mapping.inj
    (h.installed.holder_unique (holdings_mapping h₁) (holdings_mapping h₂) hov)

/-- Only one thread maps at an address. -/
theorem map_thread_unique (h : Separated mappings threads) {id₁ id₂ vaddr : Nat}
    {pte₁ pte₂ : PageTableEntry} (h₁ : threads id₁ = some (.map vaddr pte₁))
    (h₂ : threads id₂ = some (.map vaddr pte₂)) : id₁ = id₂ :=
  h.inflight.holder_unique (inflightRegions_of_eq h₁) (inflightRegions_of_eq h₂)
    (overlap_of_base_eq rfl)

private theorem inflightMapNoOverlapPmem (h : Separated mappings threads) :
    inflightMapNoOverlapPmem threads.values mappings := by
  rintro a ⟨id, ha⟩
  cases a with
  | map vaddr pte =>
    rintro ⟨b, p, hb, hov⟩
    exact h.frames (.thread id) (.mapping b) _ _ Holder.noConfusion (holdings_thread ha)
      (holdings_mapping hb) hov
  | _ => trivial

private theorem inflightMapNoOverlapInflightPmem (h : Separated mappings threads) :
    inflightMapNoOverlapInflightPmem threads.values := by
  rintro a ⟨id, ha⟩
  cases a with
  | map vaddr pte =>
    -- the conflicting request differs, so it is another thread's
    rintro ⟨b, ⟨⟨id', hb⟩, hne⟩, hov⟩
    have hid : Holder.thread id ≠ .thread id' := by
      intro heq
      rw [Holder.thread.inj heq, hb] at ha
      exact hne (Option.some.inj ha)
    cases b with
    | empty => exact hov
    | map vaddr' pte' =>
      exact h.frames _ _ _ _ hid (holdings_thread ha) (holdings_thread hb) hov
    | unmap vaddr' pte' =>
      obtain ⟨p, rfl, hov⟩ := hov
      exact h.frames _ _ _ _ hid (holdings_thread ha) (holdings_thread hb) hov
  | _ => trivial

private theorem inflightMemSizeOverZero (h : Separated mappings threads) :
    inflightMemSizeOverZero threads.values := by
  rintro a ⟨id, ha⟩
  cases a with
  | map vaddr pte => exact (h.pages (.thread id) _ (holdings_thread ha)).size_pos
  | _ => trivial

private theorem inflightMapsUnique (h : Separated mappings threads) :
    inflightMapsUnique threads := by
  intro id _
  unfold ifMapThenUnique
  split
  · rename_i vaddr pte hthread
    rintro ⟨id', hid'⟩
    obtain ⟨hne, hid'⟩ := (PMap.remove_eq_some _ _ _ _).mp hid'
    exact hne (h.map_thread_unique hid' hthread)
  · trivial

end Separated

private theorem HlInv.inv {c : AbstractConstants} {s : AbstractVariables} (h : HlInv c s) :
    HlSpec.Inv c s where
  wf := h.wf
  pmem_no_overlap := h.separated.pmemNoOverlap
  inflight_map_no_overlap_pmem := h.separated.inflightMapNoOverlapPmem
  inflight_map_no_overlap_inflight_pmem := h.separated.inflightMapNoOverlapInflightPmem
  mappings_frame_sizes_over_zero := fun _ _ hmap ↦
    (h.separated.pages _ _ (holdings_mapping hmap)).size_pos
  inflight_mem_size_over_zero := h.separated.inflightMemSizeOverZero
  inflight_maps_unique := h.separated.inflightMapsUnique

/-- In every run of the high-level machine, every sound state satisfies the invariant, its
mappings do not overlap and its memory has exactly the mapped words. -/
theorem hlMachine_keeps_inv [PhyAddrWidth] (c : AbstractConstants) {s : AbstractVariables}
    (hreach : (hlMachine c).Reachable s) (hsound : s.sound = true) :
    HlSpec.Inv c s ∧
      (∀ b₁ b₂ p₁ p₂, b₁ ≠ b₂ → s.mappings b₁ = some p₁ → s.mappings b₂ = some p₂ →
        ¬overlap ⟨b₁, p₁.frame.size⟩ ⟨b₂, p₂.frame.size⟩) ∧
      s.mem.dom = memDomainFromMappings c.physMemSize s.mappings := by
  have h := HlInv.of_reachable hreach hsound
  refine ⟨h.inv, ?_, h.mem_dom⟩
  intro b₁ b₂ p₁ p₂ hne h₁ h₂ hov
  exact hne (h.separated.vmemNoOverlap h₁ h₂ hov)

/-! ## The example program

`program_1` (`hlspec_user.rs:23–109`): one of four threads maps a page, stores 42 in its first
word and loads it again. -/

namespace Program1

attribute [local instance] widePhyAddr

/-- `c`. -/
def c : AbstractConstants := ⟨4, 4096 * 4096⟩

/-- `pte1`. -/
def pte1 : PageTableEntry := ⟨⟨4096, 4096⟩, ⟨true, false, true⟩⟩

/-- `s1`. -/
def s1 : AbstractVariables where
  mem := PMap.empty
  threadState := fun id ↦ if id < 4 then some .empty else none
  mappings := PMap.empty
  sound := true

/-- `s2`, after the map request. -/
def s2 : AbstractVariables :=
  { s1 with threadState := s1.threadState.insert 1 (.map (4096 * 3) pte1) }

/-- `s3`, after the page was mapped, with zeros in it. -/
def s3 : AbstractVariables :=
  { s2 with
    threadState := s2.threadState.insert 1 .empty
    mappings := s2.mappings.insert (4096 * 3) pte1
    mem := fun idx ↦ if 512 * 3 ≤ idx ∧ idx < 512 * 4 then some 0 else none }

/-- `s4`, after the store. -/
def s4 : AbstractVariables := { s3 with mem := s3.mem.insert (512 * 3) 42 }

/-- `s1` is an initial state. -/
theorem s1_init : HlSpec.Init c s1 where
  mem_eq := rfl
  mappings_eq := rfl
  threads_idle _ hid := if_pos hid
  wf := by
    refine ⟨fun id ↦ ?_, PMap.finite_dom_empty, PMap.finite_dom_empty⟩
    show id < 4 ↔ (if id < 4 then some AbstractArguments.empty else none).isSome
    split <;> simp_all
  sound := rfl

private theorem values_s1 {a : AbstractArguments} (h : a ∈ s1.threadState.values) : a = .empty := by
  obtain ⟨id, hid⟩ := h
  simp only [s1] at hid
  split at hid
  · exact (Option.some.inj hid).symm
  · cases hid

private theorem mapStart : HlSpec.NextStep c s1 s2 (.mapStart 1 (4096 * 3) pte1) := by
  refine ⟨⟨by decide, by decide, by decide, ?_, by decide⟩, show 1 < 4 by decide, rfl, ?_, ?_⟩
  · show 4096 * 3 + 4096 < x86Arch.upperVaddr 0 0
    decide
  · exact fun _ ↦ ⟨rfl, rfl, rfl, rfl⟩
  · intro hbad
    refine absurd ⟨?_, ?_, ?_⟩ hbad
    · rintro ⟨a, ha, hov⟩
      rw [values_s1 ha] at hov
      exact hov
    · rintro ⟨b, p, hb, _⟩
      cases hb
    · rintro ⟨a, ha, hov⟩
      rw [values_s1 ha] at hov
      exact hov

private theorem mapEnd : HlSpec.NextStep c s2 s3 (.mapEnd 1 (.ok ())) := by
  refine ⟨rfl, show 1 < 4 by decide, rfl, 4096 * 3, pte1, rfl, ?_, ?_⟩
  · rintro ⟨b, p, hb, _⟩
    cases hb
  · refine fun _ ↦ ⟨rfl, rfl, fun idx hidx ↦ absurd rfl hidx, ?_⟩
    ext idx
    rw [PMap.mem_dom]
    constructor
    · rintro ⟨v, hv⟩
      obtain ⟨hlo, hhi⟩ : 512 * 3 ≤ idx ∧ idx < 512 * 4 := by
        by_contra hno
        simp only [s3, if_neg hno] at hv
        cases hv
      refine ⟨4096 * 3, pte1, rfl, ⟨?_, ?_⟩, ?_⟩
      · show 4096 * 3 ≤ idx * 8
        omega
      · show idx * 8 < 4096 * 3 + 4096
        omega
      · show (4096 + (idx * 8 - 4096 * 3)) / 8 < 4096 * 4096
        omega
    · rintro ⟨base, pte, hmap, ⟨hlo, hhi⟩, _⟩
      rcases (PMap.insert_eq_some _ _ _ _ _).mp hmap with ⟨rfl, rfl⟩ | ⟨_, hmap⟩
      · have hlo : 4096 * 3 ≤ idx * 8 := hlo
        have hhi : idx * 8 < 4096 * 3 + 4096 := hhi
        exact ⟨0, if_pos ⟨by omega, by omega⟩⟩
      · cases hmap

private theorem store : HlSpec.NextStep c s3 s4
    (.readWrite 1 (4096 * 3) (.store 42 .ok) (some (4096 * 3, pte1))) :=
  ⟨rfl, by decide, rfl, show 1 < 4 by decide, rfl, rfl, rfl, by decide, rfl, rfl⟩

/-- The program up to its load. -/
theorem path : (hlMachine c).Path s1
    [(.mapStart 1 (4096 * 3) pte1, s2), (.mapEnd 1 (.ok ()), s3),
      (.readWrite 1 (4096 * 3) (.store 42 .ok) (some (4096 * 3, pte1)), s4)] s4 := by
  have h2 : (hlMachine c).Path s1 [(.mapStart 1 (4096 * 3) pte1, s2)] s2 :=
    .snoc (.nil s1) mapStart
  have h3 : (hlMachine c).Path s1
      [(.mapStart 1 (4096 * 3) pte1, s2), (.mapEnd 1 (.ok ()), s3)] s3 :=
    .snoc h2 mapEnd
  exact .snoc h3 store

/-- The load returns what was stored. -/
theorem load : HlSpec.NextStep c s4 s4
    (.readWrite 1 (4096 * 3) (.load false (.value 42)) (some (4096 * 3, pte1))) :=
  ⟨rfl, by decide, rfl, show 1 < 4 by decide, rfl, rfl, rfl, by decide, rfl, 42, rfl, rfl⟩

end Program1

attribute [local instance] widePhyAddr in
/-- The program maps a page and stores to it, and ends in a state with the invariant. -/
theorem hlMachine_keeps_inv_program1 : HlSpec.Inv Program1.c Program1.s4 ∧
    (∀ b₁ b₂ p₁ p₂, b₁ ≠ b₂ → Program1.s4.mappings b₁ = some p₁ →
      Program1.s4.mappings b₂ = some p₂ →
        ¬overlap ⟨b₁, p₁.frame.size⟩ ⟨b₂, p₂.frame.size⟩) ∧
    Program1.s4.mem.dom =
      memDomainFromMappings Program1.c.physMemSize Program1.s4.mappings :=
  hlMachine_keeps_inv Program1.c (Program1.path.reachable Program1.s1_init) rfl

end NrKernel.OS
