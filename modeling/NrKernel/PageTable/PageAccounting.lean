import NrKernel.Lib.Transition
import NrKernel.PageTable.Refinement

/-!
# Page accounting

No page leaks and no directory dangles: over any sequence of calls of `map_frame` and `unmap`
the allocated pages are exactly the directories that are reached from the root table through
directory entries, each along one path. The invariant makes the ghost `used_regions` exact: a
directory uses its own page and the pages of its subdirectories, and no other.
-/

namespace NrKernel.PageTable

open Lib Lib.Machine PtMemory

/-! ## Exact ghost trees -/

/-- Every page a directory uses is its own or one of a subdirectory, at every level: the
converse of `ghost_pt_used_regions_rtrancl`. -/
inductive PTDir.Exact : PTDir → Prop where
  | intro {pt : PTDir}
      (used : ∀ r ∈ pt.usedRegions, r = pt.region ∨ ∃ i d, pt.entry i = some d ∧ r ∈ d.usedRegions)
      (sub : ∀ i d, pt.entry i = some d → d.Exact) : pt.Exact

namespace PTDir.Exact

private theorem used {pt : PTDir} (h : pt.Exact) : ∀ r ∈ pt.usedRegions,
    r = pt.region ∨ ∃ i d, pt.entry i = some d ∧ r ∈ d.usedRegions := by
  cases h with
  | intro used sub => exact used

private theorem sub {pt d : PTDir} (h : pt.Exact) {i : Nat} (hd : pt.entry i = some d) :
    d.Exact := by
  cases h with
  | intro used sub => exact sub i d hd

/-- The ghost directory of a zeroed page is exact. -/
theorem empty (region : MemRegion) : (PTDir.empty region).Exact := by
  apply PTDir.Exact.intro
  · exact fun r hr ↦ .inl hr
  · intro i d hd
    rw [PTDir.entry_empty] at hd
    cases hd

/-- Replacing a subdirectory. The pages used afterwards that are neither the directory's own
nor a sibling's must be pages of the new subdirectory. -/
theorem set {pt : PTDir} (h : pt.Exact) {idx : Nat} (hidx : idx < pt.entries.length)
    {sub : Option PTDir} {usedRegions : Set MemRegion} (hsub : ∀ d, sub = some d → d.Exact)
    (hused : ∀ r ∈ usedRegions, r ∈ pt.usedRegions ∨ ∃ d, sub = some d ∧ r ∈ d.usedRegions)
    (hold : ∀ d, pt.entry idx = some d → ∀ r ∈ usedRegions, r ∈ d.usedRegions →
      ∃ d', sub = some d' ∧ r ∈ d'.usedRegions) :
    PTDir.Exact ⟨pt.region, pt.entries.set idx sub, usedRegions⟩ := by
  have hentry : ∀ i, PTDir.entry ⟨pt.region, pt.entries.set idx sub, usedRegions⟩ i =
      if i = idx then sub else pt.entry i := pt.entry_set hidx sub _ _
  have hnew : ∀ {r d}, sub = some d → r ∈ d.usedRegions → ∃ i d,
      PTDir.entry ⟨pt.region, pt.entries.set idx sub, usedRegions⟩ i = some d ∧
        r ∈ d.usedRegions := by
    intro r d hd hr
    exact ⟨idx, d, by rw [hentry, if_pos rfl, hd], hr⟩
  apply PTDir.Exact.intro
  · intro r hr
    rcases hused r hr with hin | ⟨d, hd, hin⟩
    · rcases h.used r hin with heq | ⟨i, d, hd, hrd⟩
      · exact .inl heq
      · right
        by_cases hi : i = idx
        · rw [hi] at hd
          obtain ⟨d', hd', hr'⟩ := hold d hd r hr hrd
          exact hnew hd' hr'
        · exact ⟨i, d, by rw [hentry, if_neg hi, hd], hrd⟩
    · exact .inr (hnew hd hin)
  · intro i d hd
    rw [hentry] at hd
    by_cases hi : i = idx
    · rw [if_pos hi] at hd
      exact hsub d hd
    · rw [if_neg hi] at hd
      exact h.sub hd

/-- A directory without subdirectories uses its own page only. -/
theorem used_of_no_entries {pt : PTDir} (h : pt.Exact) (hnone : ∀ i, pt.entry i = none) :
    ∀ r ∈ pt.usedRegions, r = pt.region := by
  intro r hr
  rcases h.used r hr with heq | ⟨i, d, hd, _⟩
  · exact heq
  · rw [hnone] at hd
    cases hd

end PTDir.Exact

section Runs

variable {M : Type} [PhyAddrWidth] [PageTableMemory M]

private theorem LocalInvAt.entry_eq_none {mem : M} {pt : PTDir} {layer ptr base : Nat}
    (h : LocalInvAt mem pt layer ptr) (hempty : (interpAt mem pt layer base).Empty) (i : Nat) :
    pt.entry i = none := by
  by_contra hne
  obtain ⟨d, hd⟩ := Option.ne_none_iff_exists'.mp hne
  have hi := h.entry_lt hd
  have hview := (h.interpAt_isEmpty hi base).mp
    (hempty i (by rw [interpAt_numEntries _ _ _ h.layer_in_range]; exact hi))
  have hmatch := h.ghost_pt_matches_structure i hi
  rw [hview, hd] at hmatch
  cases hmatch

/-- Mapping a frame keeps the ghost tree exact. -/
theorem MapRun.exact {mem mem' : M} {pt ptRes : PTDir} {layer ptr base vaddr : Nat}
    {pte : PageTableEntry} {newRegions : Set MemRegion}
    (run : MapRun vaddr pte mem pt layer ptr base (.ok (ptRes, newRegions)) mem')
    (hexact : pt.Exact) : ptRes.Exact := by
  generalize hres : Except.ok (ptRes, newRegions) = res at run
  induction run generalizing ptRes newRegions with
  | occupied => cases hres
  | page =>
    cases hres
    exact hexact
  | directoryRefused => cases hres
  | directory h hsize hview hd sub ih =>
    cases hres
    have hens := sub.outcome.1
    apply hexact.set (by rw [h.inv.loc.entries_length]; exact h.index_lt)
    · rintro d ⟨⟩
      exact ih (hexact.sub hd) rfl
    · intro r hr
      rcases hr with hr | hr
      · exact .inl hr
      · refine .inr ⟨_, rfl, ?_⟩
        rw [hens.used_eq]
        exact .inr hr
    · intro d' hd' r _ hr
      rw [hd, Option.some.injEq] at hd'
      refine ⟨_, rfl, ?_⟩
      rw [hens.used_eq, hd']
      exact .inl hr
  | @insert mem mem₁ mem₂ mem' pt dRes layer ptr base region newRegions h _ hview _ _ _ _ _ sub
      ih =>
    cases hres
    have hens := sub.outcome.1
    have hlen : x86Arch.indexForVaddr layer base vaddr < pt.entries.length := by
      rw [h.inv.loc.entries_length]
      exact h.index_lt
    have hnone := h.inv.loc.entry_eq_none_of_view h.index_lt (by rw [hview]; rfl)
    rw [List.set_set]
    apply hexact.set hlen
    · rintro d ⟨⟩
      exact ih (.empty region) rfl
    · intro r hr
      rcases hr with (rfl | hr) | hr
      · refine .inr ⟨_, rfl, ?_⟩
        rw [hens.used_eq]
        exact .inl rfl
      · exact .inl hr
      · refine .inr ⟨_, rfl, ?_⟩
        rw [hens.used_eq]
        exact .inr hr
    · intro d' hd'
      rw [hnone] at hd'
      cases hd'

/-- Removing a mapping keeps the ghost tree exact: what is freed with an emptied directory is
all it used. -/
theorem UnmapRun.exact {mem mem' : M} {pt ptRes : PTDir} {layer ptr base vaddr : Nat}
    {removedRegions : Set MemRegion}
    (run : UnmapRun vaddr mem pt layer ptr base (.ok (ptRes, removedRegions)) mem')
    (hexact : pt.Exact) : ptRes.Exact := by
  generalize hres : Except.ok (ptRes, removedRegions) = res at run
  induction run generalizing ptRes removedRegions with
  | absent => cases hres
  | page =>
    cases hres
    exact hexact
  | directoryRefused => cases hres
  | kept h hview hd sub _ ih =>
    cases hres
    have hens := sub.outcome.1
    apply hexact.set (by rw [h.inv.loc.entries_length]; exact h.index_lt)
    · rintro d ⟨⟩
      exact ih (hexact.sub hd) rfl
    · exact fun r hr ↦ .inl hr.1
    · intro d' hd' r hr hrd
      rw [hd, Option.some.injEq] at hd'
      refine ⟨_, rfl, ?_⟩
      rw [hens.used_eq, hd']
      exact ⟨hrd, hr.2⟩
  | emptied h hview hd sub hempty _ _ _ ih =>
    cases hres
    have hens := sub.outcome.1
    apply hexact.set (by rw [h.inv.loc.entries_length]; exact h.index_lt)
    · rintro d ⟨⟩
    · exact fun r hr ↦ .inl hr.1
    · -- the emptied directory has no subdirectories left, so all its pages are freed
      intro d' hd' r hr hrd
      have hnone := hens.inv.loc.entry_eq_none hempty
      rw [hd, Option.some.injEq] at hd'
      rw [← hd'] at hrd
      have hown := (ih (hexact.sub hd) rfl).used_of_no_entries hnone r (by
        rw [hens.used_eq]
        exact ⟨hrd, fun hrem ↦ hr.2 (.inr hrem)⟩)
      exact absurd (.inl hown) hr.2

end Runs

/-! ## Paths through directory entries -/

section Paths

variable {M : Type} [PtMemoryOps M] [PhyAddrWidth]

/-- Where the table stands that a path of entry indices leads to through directory entries,
as the MMU reads them. -/
def tableAt (mem : M) : Nat → Nat → List Nat → Option Nat
  | _, ptr, [] => some ptr
  | layer, ptr, i :: path =>
    if i < x86NumEntries then
      match readEntry mem ptr layer i with
      | .directory e => tableAt mem (layer + 1) e.addr path
      | _ => none
    else none

/-- The directory page that a path of entry indices leads to from `cr3`. -/
def directoryPage (mem : M) (path : List Nat) : Option MemRegion :=
  (tableAt mem 0 (cr3 mem).base path).map fun ptr ↦ ⟨ptr, pageSize⟩

/-- The first step of a path goes through a directory entry. -/
theorem tableAt_cons {mem : M} {layer ptr i q : Nat} {path : List Nat} :
    tableAt mem layer ptr (i :: path) = some q ↔ i < x86NumEntries ∧
      ∃ e, readEntry mem ptr layer i = .directory e ∧
        tableAt mem (layer + 1) e.addr path = some q := by
  rw [tableAt]
  by_cases hi : i < x86NumEntries
  · rw [if_pos hi]
    cases hv : readEntry mem ptr layer i with
    | directory e => simp [hi]
    | page p => simp
    | empty => simp
  · simp [hi]

/-- A path out of a table of the tree goes on in one of its subdirectories. -/
theorem InvAt.tableAt_cons {mem : M} {pt : PTDir} {layer ptr i q : Nat} {path : List Nat}
    (h : InvAt mem pt layer ptr) (hpath : tableAt mem layer ptr (i :: path) = some q) :
    ∃ e d, i < x86NumEntries ∧ viewAt mem pt layer i = .directory e ∧ pt.entry i = some d ∧
      tableAt mem (layer + 1) e.addr path = some q := by
  obtain ⟨hi, e, hread, hrest⟩ := PageTable.tableAt_cons.mp hpath
  rw [h.loc.readEntry_eq] at hread
  obtain ⟨d, hd⟩ := h.loc.exists_entry hi hread
  exact ⟨e, d, hi, hread, hd, hrest⟩

/-- Paths lead to pages of the tree. -/
theorem InvAt.mem_of_tableAt {mem : M} {pt : PTDir} {layer ptr q : Nat} {path : List Nat}
    (h : InvAt mem pt layer ptr) (hpath : tableAt mem layer ptr path = some q) :
    (⟨q, pageSize⟩ : MemRegion) ∈ pt.usedRegions := by
  induction path generalizing pt layer ptr with
  | nil =>
    cases hpath
    rw [← h.loc.region_eq]
    exact h.loc.used_regions_refl
  | cons i path ih =>
    obtain ⟨e, d, hi, hview, hd, hrest⟩ := h.tableAt_cons hpath
    exact h.loc.used_regions_trans i d hd (ih (h.sub hi hview hd) hrest)

private theorem InvAt.tableAt_cons_ne {mem : M} {pt : PTDir} {layer ptr i : Nat} {path : List Nat}
    (h : InvAt mem pt layer ptr) : tableAt mem layer ptr (i :: path) ≠ some ptr := by
  intro hpath
  obtain ⟨e, d, hi, hview, hd, hrest⟩ := h.tableAt_cons hpath
  have hin := (h.sub hi hview hd).mem_of_tableAt hrest
  rw [← h.loc.region_eq] at hin
  exact h.loc.region_notin_used_regions i d hd hin

/-- Different paths lead to different pages. -/
theorem InvAt.tableAt_injective {mem : M} {pt : PTDir} {layer ptr q : Nat} {path path' : List Nat}
    (h : InvAt mem pt layer ptr) (hpath : tableAt mem layer ptr path = some q)
    (hpath' : tableAt mem layer ptr path' = some q) : path = path' := by
  induction path generalizing pt layer ptr path' with
  | nil =>
    cases hpath
    cases path' with
    | nil => rfl
    | cons j path' => exact absurd hpath' h.tableAt_cons_ne
  | cons i path ih =>
    cases path' with
    | nil =>
      cases hpath'
      exact absurd hpath h.tableAt_cons_ne
    | cons j path' =>
      obtain ⟨e, d, hi, hview, hd, hrest⟩ := h.tableAt_cons hpath
      obtain ⟨e', d', hj, hview', hd', hrest'⟩ := h.tableAt_cons hpath'
      have hin := (h.sub hi hview hd).mem_of_tableAt hrest
      have hin' := (h.sub hj hview' hd').mem_of_tableAt hrest'
      have hij : i = j := by
        by_contra hne
        exact h.loc.used_regions_pairwise_disjoint i j d d' _ hne hd hd' hin hin'
      subst hij
      rw [hview, GhostPageDirectoryEntry.directory.injEq] at hview'
      subst hview'
      rw [ih (h.sub hi hview hd) hrest hrest']

/-- Every page of an exact tree is at the end of a path. -/
theorem InvAt.exists_path {mem : M} {pt : PTDir} {layer ptr : Nat} (h : InvAt mem pt layer ptr)
    (hexact : pt.Exact) : ∀ r ∈ pt.usedRegions,
      ∃ path q, tableAt mem layer ptr path = some q ∧ r = ⟨q, pageSize⟩ := by
  induction h with
  | @intro pt layer ptr loc sub ih =>
    intro r hr
    rcases hexact.used r hr with heq | ⟨i, d, hd, hrd⟩
    · exact ⟨[], ptr, rfl, heq.trans loc.region_eq⟩
    · have hi := loc.entry_lt hd
      have hmatch := loc.ghost_pt_matches_structure i hi
      rw [hd] at hmatch
      cases hview : viewAt mem pt layer i with
      | empty =>
        rw [hview] at hmatch
        cases hmatch
      | page p =>
        rw [hview] at hmatch
        cases hmatch
      | directory e =>
        obtain ⟨path, q, hpath, heq⟩ := ih i e d hi hview hd (hexact.sub hd) r hrd
        refine ⟨i :: path, q, PageTable.tableAt_cons.mpr ⟨hi, e, ?_, hpath⟩, heq⟩
        rw [loc.readEntry_eq]
        exact hview

/-- Below the table where they start, paths lead to directories that are not empty. -/
theorem InvAt.nonempty_of_tableAt {mem : M} {pt : PTDir} {layer ptr base q : Nat} {path : List Nat}
    (h : InvAt mem pt layer ptr) (hinterp : (interpAt mem pt layer base).Inv)
    (hpath : tableAt mem layer ptr path = some q) (hne : path ≠ []) :
    ∃ i, i < x86NumEntries ∧ readEntry mem q (layer + path.length) i ≠ .empty := by
  induction path generalizing pt layer ptr base with
  | nil => exact absurd rfl hne
  | cons i path ih =>
    obtain ⟨e, d, hi, hview, hd, hrest⟩ := h.tableAt_cons hpath
    have hentry := h.loc.interpAt_directory hi hview hd base
    have hsub := h.sub hi hview hd
    have hlen : layer + (i :: path).length = layer + 1 + path.length := by
      rw [List.length_cons]
      omega
    rw [hlen]
    cases path with
    | cons j path => exact ih hsub (hinterp.sub hentry) hrest (List.cons_ne_nil _ _)
    | nil =>
      cases hrest
      have hnot := hinterp.loc.directories_are_nonempty i _ hentry
      by_contra hall
      apply hnot
      intro k hk
      rw [interpAt_numEntries _ _ _ hsub.loc.layer_in_range] at hk
      apply (hsub.loc.interpAt_isEmpty hk _).mpr
      by_contra hview'
      refine hall ⟨k, hk, ?_⟩
      rw [List.length_nil, hsub.loc.readEntry_eq]
      exact hview'

end Paths

/-! ## Sequences of calls -/

section Calls

variable {M : Type} [PhyAddrWidth] [PageTableMemory M]

/-- The exec functions as they are called, with their results. -/
inductive PtCall where
  | mapFrame (vaddr : Nat) (pte : PageTableEntry) (result : Except Unit Unit)
  | unmap (vaddr : Nat) (result : Except Unit Unit)

/-- A call made with the preconditions of its signature (`impl_u/l2_impl.rs:1683–1691`,
`2174–2180`), from a memory and its ghost tree to what it leaves behind. -/
inductive PtCall.Step : M × PTDir → PtCall → M × PTDir → Prop where
  | mapFrame {mem mem' : M} {pt pt' : PTDir} {vaddr : Nat} {pte : PageTableEntry}
      {result : Except Unit Unit} (hinv : PT.Inv mem pt) (hinterp : (PT.interp mem pt).Inv)
      (hpages : 3 ≤ allocAvailablePages mem) (hpte : AcceptedMapping pte)
      (ha : (PT.interp mem pt).AcceptedMapping vaddr pte) (hmax : vaddr < maxBase)
      (hcall : PageTable.mapFrame mem pt vaddr pte = some (result, mem', pt')) :
      Step (mem, pt) (.mapFrame vaddr pte result) (mem', pt')
  | unmap {mem mem' : M} {pt pt' : PTDir} {vaddr : Nat} {result : Except Unit Unit}
      (hinv : PT.Inv mem pt) (hinterp : (PT.interp mem pt).Inv)
      (ha : (PT.interp mem pt).AcceptedUnmap vaddr) (hmax : vaddr < maxBase)
      (hcall : PageTable.unmap mem pt vaddr = some (result, mem', pt')) :
      Step (mem, pt) (.unmap vaddr result) (mem', pt')

variable (M) in
/-- Sequences of calls from a memory whose only region is a zeroed root directory. -/
def ptMachine : Machine (M × PTDir) PtCall where
  init s := SpecPt.Init ⟨s.1⟩ ∧ PT.Inv s.1 s.2
  step := PtCall.Step

/-- The invariant of the calls: an exact ghost tree that accounts for every allocated page. -/
structure Accounted (mem : M) (pt : PTDir) : Prop where
  inv : PT.Inv mem pt
  interp_inv : (PT.interp mem pt).Inv
  exact : pt.Exact
  regions_eq : regions mem = pt.usedRegions

private theorem SpecPt.Init.eq_empty {mem : M} {pt : PTDir} (h : SpecPt.Init ⟨mem⟩)
    (hinv : PT.Inv mem pt) : pt = PTDir.empty (cr3 mem) := by
  obtain ⟨hregion, htree⟩ := hinv
  have hloc := htree.loc
  obtain ⟨⟨_, hzero⟩, _⟩ := h.tree
  have hnone : ∀ i, pt.entry i = none := by
    intro i
    by_contra hne
    obtain ⟨d, hd⟩ := Option.ne_none_iff_exists'.mp hne
    have hi := hloc.entry_lt hd
    have hmatch := hloc.ghost_pt_matches_structure i hi
    have hempty := hzero.loc.ghost_pt_matches_structure i hi
    rw [← hzero.loc.readEntry_eq, hloc.readEntry_eq, PTDir.entry_empty, hmatch, hd] at hempty
    cases hempty
  have hentries : pt.entries = List.replicate x86NumEntries none := by
    apply List.eq_replicate_iff.mpr
    refine ⟨hloc.entries_length, fun x hx ↦ ?_⟩
    obtain ⟨i, hi, rfl⟩ := List.getElem_of_mem hx
    rw [← List.getD_eq_getElem _ none hi]
    exact hnone i
  have hused : pt.usedRegions = {cr3 mem} := by
    apply Set.Subset.antisymm
    · rw [← h.regions_eq]
      exact hloc.used_regions_subset
    · rw [Set.singleton_subset_iff, ← hregion]
      exact hloc.used_regions_refl
  cases pt
  cases hregion
  cases hentries
  cases hused
  rfl

private theorem Accounted.init {mem : M} {pt : PTDir} (h : SpecPt.Init ⟨mem⟩)
    (hinv : PT.Inv mem pt) : Accounted mem pt := by
  have heq := h.eq_empty hinv
  obtain ⟨_, hinterp, _⟩ := h.tree
  rw [← heq] at hinterp
  exact {
    inv := hinv
    interp_inv := hinterp
    exact := by
      rw [heq]
      exact .empty _
    regions_eq := by
      rw [heq, h.regions_eq]
      rfl }

/-- Every call keeps the accounting. -/
theorem Accounted.step {s t : M × PTDir} {l : PtCall} (h : Accounted s.1 s.2)
    (hstep : PtCall.Step s l t) : Accounted t.1 t.2 := by
  cases hstep with
  | @mapFrame mem mem' pt pt' vaddr pte result hinv hinterp hpages hpte ha hmax hcall =>
    obtain ⟨_, _, _, hspec, hens⟩ := mapFrame_spec hinv hinterp hpages hpte ha hmax
    cases hcall.symm.trans hspec
    rcases mapFrame_run hinv hinterp hpages hpte ha hmax with
      ⟨_, _, _, hcall', hrun⟩ | ⟨hcall', _⟩
    · cases hcall.symm.trans hcall'
      have haux := hrun.outcome.1
      refine ⟨hens.inv, hens.interp_inv, hrun.exact h.exact, ?_⟩
      rw [haux.regions_eq, haux.used_eq, h.regions_eq]
    · cases hcall.symm.trans hcall'
      exact h
  | @unmap mem mem' pt pt' vaddr result hinv hinterp ha hmax hcall =>
    obtain ⟨_, _, _, hspec, hens⟩ := unmap_spec hinv hinterp ha hmax
    cases hcall.symm.trans hspec
    rcases unmap_run hinv hinterp ha hmax with ⟨_, _, _, hcall', hrun⟩ | ⟨hcall', _⟩
    · cases hcall.symm.trans hcall'
      have haux := hrun.outcome.1
      refine ⟨hens.inv, hens.interp_inv, hrun.exact h.exact, ?_⟩
      rw [haux.regions_eq, haux.used_eq, h.regions_eq]
    · cases hcall.symm.trans hcall'
      exact h

/-- After every sequence of calls the pages are accounted for. -/
theorem Accounted.of_reachable {mem : M} {pt : PTDir} (h : (ptMachine M).Reachable (mem, pt)) :
    Accounted mem pt := by
  have hinit : ∀ s, (ptMachine M).init s → Accounted s.1 s.2 := fun _ hs ↦ .init hs.1 hs.2
  exact Reachable.invariant hinit (fun _ _ _ hs hstep ↦ hs.step hstep) h

/-- In an accounted state the allocated pages are the pages at the ends of the paths. -/
theorem Accounted.mem_regions_iff {mem : M} {pt : PTDir} (h : Accounted mem pt) (r : MemRegion) :
    r ∈ regions mem ↔ ∃ path, directoryPage mem path = some r := by
  rw [h.regions_eq]
  constructor
  · intro hr
    obtain ⟨path, q, hpath, rfl⟩ := h.inv.2.exists_path h.exact r hr
    exact ⟨path, by rw [directoryPage, hpath]; rfl⟩
  · rintro ⟨path, hpath⟩
    obtain ⟨q, hq, rfl⟩ := Option.map_eq_some_iff.mp hpath
    exact h.inv.2.mem_of_tableAt hq

end Calls

/-! ## Main results -/

/-- No page leak and no dangling directory: after any sequence of calls the allocated regions
are exactly the directory pages reachable from `cr3` through directory entries, each reachable
by one path only, and no directory but the root is empty. -/
theorem regions_eq_reachable_directories {M : Type} [PhyAddrWidth] [PageTableMemory M] (mem : M)
    (pt : PTDir) (h : (ptMachine M).Reachable (mem, pt)) :
    regions mem = {r | ∃ path, directoryPage mem path = some r} ∧
    (∀ r ∈ regions mem, ∃! path, directoryPage mem path = some r) ∧
    (∀ r path, directoryPage mem path = some r → path ≠ [] →
      ∃ i, i < x86NumEntries ∧ readEntry mem r.base path.length i ≠ .empty) := by
  have hacc := Accounted.of_reachable h
  refine ⟨Set.ext hacc.mem_regions_iff, ?_, ?_⟩
  · intro r hr
    obtain ⟨path, hpath⟩ := (hacc.mem_regions_iff r).mp hr
    refine ⟨path, hpath, fun path' hpath' ↦ ?_⟩
    obtain ⟨q, hq, rfl⟩ := Option.map_eq_some_iff.mp hpath
    obtain ⟨q', hq', heq⟩ := Option.map_eq_some_iff.mp hpath'
    cases heq
    exact hacc.inv.2.tableAt_injective hq' hq
  · intro r path hpath hne
    obtain ⟨q, hq, rfl⟩ := Option.map_eq_some_iff.mp hpath
    have hlayer : 0 + path.length = path.length := Nat.zero_add _
    rw [← hlayer]
    exact hacc.inv.2.nonempty_of_tableAt hacc.interp_inv hq hne

attribute [local instance] widePhyAddr in
/-- The directories of one mapped page are the pages in use. -/
theorem regions_eq_reachable_directories_mapped : ∃ mem : BumpMemory,
    interpPtMem mem 0x3000 = some smallPage ∧
    regions mem = {r | ∃ path, directoryPage mem path = some r} ∧
    (∀ r ∈ regions mem, ∃! path, directoryPage mem path = some r) ∧
    (∀ r path, directoryPage mem path = some r → path ≠ [] →
      ∃ i, i < x86NumEntries ∧ readEntry mem r.base path.length i ≠ .empty) := by
  obtain ⟨mem, pt, hcall, _, _, hmap⟩ := exists_mapFrame_smallPage
  obtain ⟨hinv, hinterp, _⟩ := SpecPt.Init.tree BumpMemory.initial_init
  have hstart : (ptMachine BumpMemory).Reachable (BumpMemory.initial, rootDir) :=
    .of_init ⟨BumpMemory.initial_init, hinv⟩
  have hstep : (ptMachine BumpMemory).step (BumpMemory.initial, rootDir)
      (.mapFrame 0x3000 smallPage (.ok ())) (mem, pt) :=
    .mapFrame hinv hinterp (by decide) smallPage_accepted (smallPage_acceptedMapping _ _)
      (by decide) hcall
  exact ⟨mem, by rw [hmap, PMap.insert_self],
    regions_eq_reachable_directories mem pt (hstart.step hstep)⟩

end NrKernel.PageTable
