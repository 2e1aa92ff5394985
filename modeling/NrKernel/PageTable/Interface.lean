import NrKernel.Lib.TraceInclusion
import NrKernel.PageTable.Resolve

/-!
# The interface of the page table

The page table as its callers see it (`impl_u/l2_refinement.rs:543–605`). Between the calls there
is only the memory: every call chooses some tree that the memory stores, hands it to the function
of `l2_impl`, and drops the tree that comes back. Two such trees may claim different pages, but
they agree on all that the functions read. So a call returns the same, and leaves the same memory
behind, whichever tree is chosen, and the memories are those of a plain map from addresses to
pages.
-/

namespace NrKernel.PageTable

open Lib Lib.Machine PtMemory

/-! ## Trees of one memory -/

/-- Trees with the same pages. The pages they claim to use may differ. -/
inductive SamePages : PTDir → PTDir → Prop where
  | intro {pt pt' : PTDir} (region : pt.region = pt'.region)
      (length : pt.entries.length = pt'.entries.length)
      (isSome : ∀ i, (pt.entry i).isSome = (pt'.entry i).isSome)
      (sub : ∀ i d d', pt.entry i = some d → pt'.entry i = some d' → SamePages d d') :
      SamePages pt pt'

section Trees

variable {pt pt' d d' : PTDir}

private theorem SamePages.region (h : SamePages pt pt') : pt.region = pt'.region := by
  cases h with
  | intro region => exact region

private theorem SamePages.length (h : SamePages pt pt') :
    pt.entries.length = pt'.entries.length := by
  cases h with
  | intro _ length => exact length

/-- Both trees have a subdirectory at an index, or neither has. -/
theorem SamePages.entry (h : SamePages pt pt') (i : Nat) :
    Option.Rel SamePages (pt.entry i) (pt'.entry i) := by
  cases h with
  | intro _ _ isSome sub =>
    have hsome := isSome i
    have hsub := sub i
    cases hd : pt.entry i with
    | none =>
      rw [hd] at hsome
      rw [Option.isSome_eq_false_iff.mp hsome.symm |> Option.isNone_iff_eq_none.mp]
      exact .none
    | some d =>
      rw [hd] at hsome
      obtain ⟨d', hd'⟩ := Option.isSome_iff_exists.mp hsome.symm
      rw [hd']
      exact .some (hsub d d' hd hd')

private theorem isSome_eq_of_rel {x y : Option PTDir} (h : Option.Rel SamePages x y) :
    x.isSome = y.isSome := by
  cases h with
  | none => rfl
  | some => rfl

/-- The same subdirectory replaced in both. -/
theorem SamePages.set (h : SamePages pt pt') {x y : Option PTDir} (hsub : Option.Rel SamePages x y)
    (idx : Nat) (used used' : Set MemRegion) :
    SamePages ⟨pt.region, pt.entries.set idx x, used⟩
      ⟨pt'.region, pt'.entries.set idx y, used'⟩ := by
  have hlength := h.length
  have hentry : ∀ i, Option.Rel SamePages
      (PTDir.entry ⟨pt.region, pt.entries.set idx x, used⟩ i)
      (PTDir.entry ⟨pt'.region, pt'.entries.set idx y, used'⟩ i) := by
    intro i
    by_cases hidx : idx < pt.entries.length
    · rw [pt.entry_set hidx, pt'.entry_set (hlength ▸ hidx)]
      split
      · exact hsub
      · exact h.entry i
    · have hset : pt.entries.set idx x = pt.entries := List.set_eq_of_length_le (by omega)
      have hset' : pt'.entries.set idx y = pt'.entries := List.set_eq_of_length_le (by omega)
      rw [hset, hset']
      exact h.entry i
  refine .intro h.region ?_ (fun i ↦ isSome_eq_of_rel (hentry i)) fun i d d' hd hd' ↦ ?_
  · simp only [List.length_set, hlength]
  · have hrel := hentry i
    rw [hd, hd'] at hrel
    cases hrel with
    | some hsame => exact hsame

private theorem SamePages.empty (region : MemRegion) :
    SamePages (PTDir.empty region) (PTDir.empty region) := by
  refine .intro rfl rfl (fun _ ↦ rfl) fun i d d' hd _ ↦ ?_
  rw [PTDir.entry_empty] at hd
  cases hd

end Trees

/-- The memory stores the tree, and the tree is well formed: what a call chooses its tree by. -/
structure StoresTree {M : Type} [PtMemoryOps M] [PhyAddrWidth] (mem : M) (pt : PTDir) : Prop where
  inv : PT.Inv mem pt
  interp_inv : (PT.interp mem pt).Inv

section Choice

variable {M : Type} [PtMemoryOps M] [PhyAddrWidth] {mem : M} {pt pt' : PTDir}

/-- `ispec_inv` (`impl_u/l2_refinement.rs:544–546`). -/
def IspecInv (mem : M) : Prop := ∃ pt, StoresTree mem pt

/-- The words of a table determine which pages are below it. -/
theorem InvAt.samePages {layer ptr : Nat} (h : InvAt mem pt layer ptr)
    (h' : InvAt mem pt' layer ptr) : SamePages pt pt' := by
  induction h generalizing pt' with
  | @intro pt layer ptr loc sub ih =>
    have hregion : pt.region = pt'.region := by
      rw [loc.region_eq, h'.loc.region_eq]
    have hview : ∀ i, viewAt mem pt' layer i = viewAt mem pt layer i := by
      intro i
      rw [viewAt, entryAtSpec, ← hregion]
      rfl
    refine .intro hregion ?_ (fun i ↦ ?_) fun i d d' hd hd' ↦ ?_
    · rw [loc.entries_length, h'.loc.entries_length]
    · by_cases hi : i < x86NumEntries
      · rw [← loc.ghost_pt_matches_structure i hi, ← h'.loc.ghost_pt_matches_structure i hi, hview]
      · have hnone : pt.entry i = none :=
          List.getD_eq_default _ _ (by rw [loc.entries_length]; omega)
        have hnone' : pt'.entry i = none :=
          List.getD_eq_default _ _ (by rw [h'.loc.entries_length]; omega)
        rw [hnone, hnone']
    · have hi := loc.entry_lt hd
      have hmatch := loc.ghost_pt_matches_structure i hi
      rw [hd] at hmatch
      cases hv : viewAt mem pt layer i with
      | empty =>
        rw [hv] at hmatch
        cases hmatch
      | page p =>
        rw [hv] at hmatch
        cases hmatch
      | directory e =>
        exact ih i e d hi hv hd (h'.sub hi ((hview i).trans hv) hd')

private theorem StoresTree.samePages (h : StoresTree mem pt) (h' : StoresTree mem pt') :
    SamePages pt pt' :=
  h.inv.2.samePages h'.inv.2

end Choice

/-! ## What the functions read of a tree -/

/-- Outcomes alike but for the pages that the trees they return claim to use. -/
inductive SameOutcome {M : Type} : Option (Except Unit (PTDir × Set MemRegion) × M) →
    Option (Except Unit (PTDir × Set MemRegion) × M) → Prop where
  | stopped : SameOutcome none none
  | refused (mem : M) : SameOutcome (some (.error (), mem)) (some (.error (), mem))
  | done {pt pt' : PTDir} (h : SamePages pt pt') (pages : Set MemRegion) (mem : M) :
      SameOutcome (some (.ok (pt, pages), mem)) (some (.ok (pt', pages), mem))

namespace SamePages

variable {M : Type} [PtMemoryOps M] {pt pt' : PTDir}

private theorem entryAt_eq (h : SamePages pt pt') (mem : M) (layer ptr i : Nat) :
    entryAt mem pt layer ptr i = entryAt mem pt' layer ptr i := by
  unfold entryAt
  rw [h.region]

private theorem writeEntry_eq (h : SamePages pt pt') (mem : M) (ptr i : Nat) (value : BitVec 64) :
    writeEntry mem pt ptr i value = writeEntry mem pt' ptr i value := by
  unfold writeEntry
  rw [h.region]

private theorem isDirectoryEmptyFrom_eq (n : Nat) (h : SamePages pt pt') (mem : M)
    (layer ptr numEntries : Nat) {idx : Nat} (hn : n = numEntries - idx) :
    isDirectoryEmptyFrom mem pt layer ptr numEntries idx =
      isDirectoryEmptyFrom mem pt' layer ptr numEntries idx := by
  induction n generalizing idx with
  | zero =>
    have hnot : ¬idx < numEntries := by omega
    rw [isDirectoryEmptyFrom, dif_neg hnot, isDirectoryEmptyFrom, dif_neg hnot]
  | succ n ih =>
    have hlt : idx < numEntries := by omega
    rw [isDirectoryEmptyFrom, dif_pos hlt, h.entryAt_eq, ih (by omega)]
    conv_rhs => rw [isDirectoryEmptyFrom, dif_pos hlt]

private theorem isDirectoryEmpty_eq (h : SamePages pt pt') (mem : M) (layer ptr : Nat) :
    isDirectoryEmpty mem pt layer ptr = isDirectoryEmpty mem pt' layer ptr := by
  unfold isDirectoryEmpty
  simp only [isDirectoryEmptyFrom_eq _ h mem layer ptr _ rfl]

end SamePages

namespace SameOutcome

variable {M : Type}

private theorem bind {A : Type} (o : Option A)
    {f g : A → Option (Except Unit (PTDir × Set MemRegion) × M)}
    (h : ∀ a, SameOutcome (f a) (g a)) : SameOutcome (o.bind f) (o.bind g) := by
  cases o with
  | none => exact .stopped
  | some a => exact h a

private theorem bind_sub {x y : Option PTDir} (h : Option.Rel SamePages x y)
    {f g : PTDir → Option (Except Unit (PTDir × Set MemRegion) × M)}
    (hf : ∀ d d', SamePages d d' → SameOutcome (f d) (g d')) :
    SameOutcome (x.bind f) (y.bind g) := by
  cases h with
  | none => exact .stopped
  | some hsame => exact hf _ _ hsame

private theorem bind_call {o o' : Option (Except Unit (PTDir × Set MemRegion) × M)}
    (h : SameOutcome o o') {f g : Except Unit (PTDir × Set MemRegion) × M →
      Option (Except Unit (PTDir × Set MemRegion) × M)}
    (hrefused : ∀ mem, SameOutcome (f (.error (), mem)) (g (.error (), mem)))
    (hdone : ∀ pt pt' pages mem, SamePages pt pt' →
      SameOutcome (f (.ok (pt, pages), mem)) (g (.ok (pt', pages), mem))) :
    SameOutcome (o.bind f) (o'.bind g) := by
  cases h with
  | stopped => exact .stopped
  | refused mem => exact hrefused mem
  | done h pages mem => exact hdone _ _ pages mem h

variable [PtMemoryOps M]

private theorem bind_insert {pt pt' : PTDir} (h : SamePages pt pt') (mem : M)
    (layer ptr idx : Nat) {f g : (PTDir × MemRegion × PageDirectoryEntry) × M →
      Option (Except Unit (PTDir × Set MemRegion) × M)}
    (hf : ∀ d d' r e mem, SamePages d d' → SameOutcome (f ((d, r, e), mem)) (g ((d', r, e), mem))) :
    SameOutcome ((insertEmptyDirectory mem pt layer ptr idx).bind f)
      ((insertEmptyDirectory mem pt' layer ptr idx).bind g) := by
  unfold insertEmptyDirectory
  cases allocDirectory mem with
  | none => exact .stopped
  | some res =>
    rcases res with ⟨r, mem⟩
    have hwrite := h.writeEntry_eq mem ptr idx
      (PageDirectoryEntry.newDirEntry layer (BitVec.ofNat 64 r.base)).entry
    simp only [Option.bind_eq_bind, Option.bind_some, hwrite]
    cases writeEntry mem pt' ptr idx
      (PageDirectoryEntry.newDirEntry layer (BitVec.ofNat 64 r.base)).entry with
    | none => exact .stopped
    | some mem => exact hf _ _ _ _ mem (h.set (.some (.empty r)) idx _ _)

end SameOutcome

section Erasure

variable {M : Type} [PtMemoryOps M] [PhyAddrWidth]

/-- `map_frame_aux` reads only the pages of the tree. -/
theorem SamePages.mapFrameAux_same (n : Nat) {pt pt' : PTDir} (h : SamePages pt pt') (mem : M)
    {layer : Nat} (ptr base vaddr : Nat) (pte : PageTableEntry) (hn : n = x86NumLayers - layer) :
    SameOutcome (mapFrameAux mem pt layer ptr base vaddr pte)
      (mapFrameAux mem pt' layer ptr base vaddr pte) := by
  induction n generalizing mem pt pt' layer ptr base with
  | zero =>
    have hnot : ¬layer < x86NumLayers := by omega
    rw [mapFrameAux, mapFrameAux, dif_neg hnot, dif_neg hnot]
    exact .stopped
  | succ n ih =>
    have hlt : layer < x86NumLayers := by omega
    rw [mapFrameAux, mapFrameAux, dif_pos hlt, dif_pos hlt]
    apply SameOutcome.bind _ fun idx ↦ ?_
    rw [h.entryAt_eq]
    apply SameOutcome.bind _ fun entry ↦ ?_
    apply SameOutcome.bind _ fun entryBase ↦ ?_
    apply SameOutcome.bind _ fun entrySize ↦ ?_
    by_cases hmap : entry.isMapping
    · rw [if_pos hmap, if_pos hmap]
      by_cases hdir : entry.isDir layer
      · rw [if_pos hdir, if_pos hdir]
        by_cases hsize : entrySize = pte.frame.size
        · rw [if_pos hsize, if_pos hsize]
          exact .refused mem
        · rw [if_neg hsize, if_neg hsize]
          apply SameOutcome.bind_sub (h.entry idx) fun d d' hsame ↦ ?_
          apply (ih hsame mem _ _ (by omega)).bind_call
          · exact fun mem ↦ .refused mem
          · exact fun d d' pages mem hsame ↦ .done (h.set (.some hsame) idx _ _) pages mem
      · rw [if_neg hdir, if_neg hdir]
        exact .refused mem
    · rw [if_neg hmap, if_neg hmap]
      by_cases hsize : entrySize = pte.frame.size
      · rw [if_pos hsize, if_pos hsize]
        dsimp only
        rw [h.writeEntry_eq]
        exact SameOutcome.bind _ fun mem ↦ .done h ∅ mem
      · rw [if_neg hsize, if_neg hsize]
        apply SameOutcome.bind_insert h mem layer ptr idx fun _ _ r _ mem h ↦ ?_
        apply SameOutcome.bind_sub (h.entry idx) fun d d' hsame ↦ ?_
        apply (ih hsame mem _ _ (by omega)).bind_call
        · exact fun mem ↦ .refused mem
        · exact fun d d' pages mem hsame ↦ .done (h.set (.some hsame) idx _ _) _ mem

/-- `unmap_aux` reads only the pages of the tree. -/
theorem SamePages.unmapAux_same (n : Nat) {pt pt' : PTDir} (h : SamePages pt pt') (mem : M)
    {layer : Nat} (ptr base vaddr : Nat) (hn : n = x86NumLayers - layer) :
    SameOutcome (unmapAux mem pt layer ptr base vaddr) (unmapAux mem pt' layer ptr base vaddr) := by
  induction n generalizing mem pt pt' layer ptr base with
  | zero =>
    have hnot : ¬layer < x86NumLayers := by omega
    rw [unmapAux, unmapAux, dif_neg hnot, dif_neg hnot]
    exact .stopped
  | succ n ih =>
    have hlt : layer < x86NumLayers := by omega
    rw [unmapAux, unmapAux, dif_pos hlt, dif_pos hlt]
    apply SameOutcome.bind _ fun idx ↦ ?_
    rw [h.entryAt_eq]
    apply SameOutcome.bind _ fun entry ↦ ?_
    apply SameOutcome.bind _ fun entryBase ↦ ?_
    apply SameOutcome.bind _ fun entrySize ↦ ?_
    by_cases hmap : entry.isMapping
    · rw [if_pos hmap, if_pos hmap]
      by_cases hdir : entry.isDir layer
      · rw [if_pos hdir, if_pos hdir]
        apply SameOutcome.bind_sub (h.entry idx) fun d d' hsame ↦ ?_
        apply (ih hsame mem _ _ (by omega)).bind_call
        · exact fun mem ↦ .refused mem
        · intro d d' pages mem hsame
          dsimp only
          rw [hsame.isDirectoryEmpty_eq, hsame.region, h.writeEntry_eq]
          apply SameOutcome.bind _ fun b ↦ ?_
          cases b with
          | true => exact SameOutcome.bind _ fun mem ↦ .done (h.set .none idx _ _) _ _
          | false => exact .done (h.set (.some hsame) idx _ _) pages mem
      · rw [if_neg hdir, if_neg hdir, h.writeEntry_eq]
        apply SameOutcome.bind _ fun b ↦ ?_
        cases b with
        | true => exact SameOutcome.bind _ fun mem ↦ .done h ∅ mem
        | false => exact .refused mem
    · rw [if_neg hmap, if_neg hmap]
      exact .refused mem

/-- `resolve_aux` reads only the pages of the tree. -/
theorem SamePages.resolveAux_eq (n : Nat) {pt pt' : PTDir} (h : SamePages pt pt') (mem : M)
    {layer : Nat} (ptr base vaddr : Nat) (hn : n = x86NumLayers - layer) :
    resolveAux mem pt layer ptr base vaddr = resolveAux mem pt' layer ptr base vaddr := by
  induction n generalizing pt pt' layer ptr base with
  | zero =>
    have hnot : ¬layer < x86NumLayers := by omega
    rw [resolveAux, resolveAux, dif_neg hnot, dif_neg hnot]
  | succ n ih =>
    have hlt : layer < x86NumLayers := by omega
    rw [resolveAux, resolveAux, dif_pos hlt, dif_pos hlt]
    have hsub : ∀ idx ptr base,
        ((pt.entry idx).bind fun d ↦ resolveAux mem d (layer + 1) ptr base vaddr) =
          (pt'.entry idx).bind fun d ↦ resolveAux mem d (layer + 1) ptr base vaddr := by
      intro idx ptr base
      have hrel := h.entry idx
      generalize pt.entry idx = x at hrel
      generalize pt'.entry idx = y at hrel
      cases hrel with
      | none => rfl
      | some hsame => exact ih hsame _ _ (by omega)
    congr 1
    funext idx
    rw [h.entryAt_eq]
    congr 1
    funext entry
    by_cases hmap : entry.isMapping
    · rw [if_pos hmap, if_pos hmap]
      congr 1
      funext entryBase
      by_cases hdir : entry.isDir layer
      · rw [if_pos hdir, if_pos hdir]
        exact hsub idx _ _
      · rw [if_neg hdir, if_neg hdir]
    · rw [if_neg hmap, if_neg hmap]

end Erasure

/-! ## Requests -/

/-- The requests of the interface (`impl_u/l2_refinement.rs:572–604`). -/
inductive PtRequest where
  | mapFrame (vaddr : Nat) (pte : PageTableEntry)
  | unmap (vaddr : Nat)
  | resolve (vaddr : Nat)

/-- What the requests return. -/
inductive PtAnswer where
  | done (result : Except Unit Unit)
  | resolved (result : Except Unit (Nat × PageTableEntry))

namespace PtRequest

variable {M : Type} [PtMemoryOps M] [PhyAddrWidth]

/-- `ispec_map_frame`, `ispec_unmap` and `ispec_resolve` after their choice of a tree: the tree
that the call returns is dropped (`impl_u/l2_refinement.rs:572–604`). -/
def run (mem : M) (pt : PTDir) : PtRequest → Option (PtAnswer × M)
  | .mapFrame vaddr pte => do
    let (result, mem, _) ← PageTable.mapFrame mem pt vaddr pte
    return (.done result, mem)
  | .unmap vaddr => do
    let (result, mem, _) ← PageTable.unmap mem pt vaddr
    return (.done result, mem)
  | .resolve vaddr => do
    let result ← PageTable.resolve mem pt vaddr
    return (.resolved result, mem)

/-- What the functions require of the request (`impl_u/l2_impl.rs:922–928`, `1683–1691`,
`2174–2180`). -/
def Requires (mem : M) (pt : PTDir) : PtRequest → Prop
  | .mapFrame vaddr pte => 3 ≤ allocAvailablePages mem ∧ PageTable.AcceptedMapping pte ∧
      (PT.interp mem pt).AcceptedMapping vaddr pte ∧ vaddr < maxBase
  | .unmap vaddr => (PT.interp mem pt).AcceptedUnmap vaddr ∧ vaddr < maxBase
  | .resolve vaddr => vaddr < maxBase

/-- The request on a plain map: a mapping is inserted unless it overlaps another one, removed if
it starts at the address, and found if it covers the address. -/
def Answers (m : Mappings) : PtRequest → PtAnswer → Mappings → Prop
  | .mapFrame vaddr pte, .done result, m' =>
    (candidateMappingOverlapsExistingVmem m vaddr pte → result = .error () ∧ m' = m) ∧
    (¬candidateMappingOverlapsExistingVmem m vaddr pte →
      result = .ok () ∧ m' = m.insert vaddr pte)
  | .unmap vaddr, .done result, m' =>
    if (m vaddr).isSome then result = .ok () ∧ m' = m.remove vaddr
    else result = .error () ∧ m' = m
  | .resolve vaddr, .resolved result, m' => m' = m ∧ ∀ base pte, result = .ok (base, pte) ↔
      m base = some pte ∧ between vaddr base (base + pte.frame.size)
  | _, _, _ => False

/-- A request runs the same with every tree the memory stores. -/
theorem run_eq {mem : M} {pt pt' : PTDir} (h : StoresTree mem pt) (h' : StoresTree mem pt')
    (request : PtRequest) : request.run mem pt = request.run mem pt' := by
  have hsame := h.samePages h'
  cases request with
  | mapFrame vaddr pte =>
    have hcall := hsame.mapFrameAux_same x86NumLayers mem (cr3 mem).base 0 vaddr pte
      (Nat.sub_zero _).symm
    rw [run, run, PageTable.mapFrame, PageTable.mapFrame]
    generalize mapFrameAux mem pt 0 (cr3 mem).base 0 vaddr pte = o at hcall
    generalize mapFrameAux mem pt' 0 (cr3 mem).base 0 vaddr pte = o' at hcall
    cases hcall with
    | stopped => rfl
    | refused => rfl
    | done => rfl
  | unmap vaddr =>
    have hcall := hsame.unmapAux_same x86NumLayers mem (cr3 mem).base 0 vaddr
      (Nat.sub_zero _).symm
    rw [run, run, PageTable.unmap, PageTable.unmap]
    generalize unmapAux mem pt 0 (cr3 mem).base 0 vaddr = o at hcall
    generalize unmapAux mem pt' 0 (cr3 mem).base 0 vaddr = o' at hcall
    cases hcall with
    | stopped => rfl
    | refused => rfl
    | done => rfl
  | resolve vaddr =>
    rw [run, run, PageTable.resolve, PageTable.resolve, hsame.resolveAux_eq _ mem _ _ vaddr rfl]

end PtRequest

section Calls

variable {M : Type} [PhyAddrWidth] [PageTableMemory M] {mem : M} {pt : PTDir}

/-- A request within its requirements returns what a plain map answers, and leaves a memory that
stores a tree again. -/
theorem PtRequest.run_spec {request : PtRequest} (htree : StoresTree mem pt)
    (hreq : request.Requires mem pt) : ∃ answer mem', request.run mem pt = some (answer, mem') ∧
      IspecInv mem' ∧ request.Answers (interpPtMem mem) answer (interpPtMem mem') := by
  cases request with
  | mapFrame vaddr pte =>
    obtain ⟨hpages, hpte, ha, hmax⟩ := hreq
    obtain ⟨result, mem', pt', hcall, hens⟩ :=
      mapFrame_spec htree.inv htree.interp_inv hpages hpte ha hmax
    refine ⟨.done result, mem', ?_, ⟨pt', hens.inv, hens.interp_inv⟩, hens.step⟩
    rw [run, hcall]
    rfl
  | unmap vaddr =>
    obtain ⟨ha, hmax⟩ := hreq
    obtain ⟨result, mem', pt', hcall, hens⟩ := unmap_spec htree.inv htree.interp_inv ha hmax
    refine ⟨.done result, mem', ?_, ⟨pt', hens.inv, hens.interp_inv⟩, hens.step⟩
    rw [run, hcall]
    rfl
  | resolve vaddr =>
    have hle : (PT.interp mem pt).baseVaddr ≤ vaddr := by
      rw [PT.interp, interpAt_baseVaddr]
      exact Nat.zero_le _
    refine ⟨.resolved ((PT.interp mem pt).resolve vaddr), mem, ?_, ⟨pt, htree⟩, rfl, ?_⟩
    · rw [run, htree.inv.resolve_eq htree.interp_inv hreq]
      rfl
    · intro base pte
      rw [htree.interp_inv.resolve_eq_ok_iff hle, PageTableContents.Covers, Directory.interp_map,
        htree.inv.interpPtMem_eq htree.interp_inv]

variable (M) in
/-- The interface from a zeroed root directory on. A call may choose any tree the memory
stores. -/
def interfaceMachine : Machine M (PtRequest × PtAnswer) where
  init mem := SpecPt.Init ⟨mem⟩
  step mem call mem' := ∃ pt, StoresTree mem pt ∧ call.1.Requires mem pt ∧
    call.1.run mem pt = some (call.2, mem')

/-- A plain map with the same requests. -/
def mappingsMachine : Machine Mappings (PtRequest × PtAnswer) where
  init m := m = PMap.empty
  step m call m' := call.1.Answers m call.2 m'

private theorem interfaceMachine_step {call : PtRequest × PtAnswer} {mem' : M}
    (h : (interfaceMachine M).step mem call mem') :
    IspecInv mem' ∧ mappingsMachine.step (interpPtMem mem) call (interpPtMem mem') := by
  obtain ⟨pt, htree, hreq, hrun⟩ := h
  obtain ⟨answer, mem₁, hrun', hinv, hanswers⟩ := PtRequest.run_spec htree hreq
  cases hrun.symm.trans hrun'
  exact ⟨hinv, hanswers⟩

/-- `ispec_inv` holds initially (`ispec_init_implies_inv`) and after every call. -/
theorem IspecInv.of_reachable (h : (interfaceMachine M).Reachable mem) : IspecInv mem := by
  refine Reachable.invariant (fun mem hinit ↦ ?_) (fun _ _ _ _ hstep ↦ ?_) h
  · obtain ⟨hinv, hinterp, _⟩ := SpecPt.Init.tree hinit
    exact ⟨_, hinv, hinterp⟩
  · exact (interfaceMachine_step hstep).1

end Calls

/-! ## Main results -/

/-- The interface is a plain map. Whatever trees the calls choose, every run of requests is
answered as a map from addresses to pages answers it, and the map is what the MMU sees; and after
every call the memory stores a well-formed tree, which the next one works on. -/
theorem interface_refines_mappings (M : Type) [PhyAddrWidth] [PageTableMemory M] :
    Refines (interfaceMachine M) mappingsMachine interpPtMem (fun _ call ↦ call) ∧
    ∀ mem : M, (interfaceMachine M).Reachable mem →
      ∃ pt, PT.Inv mem pt ∧ (PT.interp mem pt).Inv := by
  refine ⟨⟨fun _ hinit ↦ hinit.interp_eq, fun _ _ _ _ hstep ↦ (interfaceMachine_step hstep).2⟩, ?_⟩
  intro mem hreach
  obtain ⟨pt, htree⟩ := IspecInv.of_reachable hreach
  exact ⟨pt, htree.inv, htree.interp_inv⟩

/-- The ghost trees are never missed. After any run of requests the memory stores a tree, so the
next call has one to choose; and a call within its requirements does not stop the program, returns
the same answer and leaves the same memory behind for all trees it may choose. -/
theorem interface_erases_trees {M : Type} [PhyAddrWidth] [PageTableMemory M] (mem : M)
    (h : (interfaceMachine M).Reachable mem) : (∃ pt, StoresTree mem pt) ∧
    ∀ (request : PtRequest) (pt : PTDir), StoresTree mem pt → request.Requires mem pt →
      ∃ answer mem', ∀ pt', StoresTree mem pt' → request.run mem pt' = some (answer, mem') := by
  refine ⟨IspecInv.of_reachable h, fun request pt htree hreq ↦ ?_⟩
  obtain ⟨answer, mem', hrun, _⟩ := PtRequest.run_spec htree hreq
  refine ⟨answer, mem', fun pt' htree' ↦ ?_⟩
  rw [← hrun]
  exact PtRequest.run_eq htree' htree request

attribute [local instance] widePhyAddr in
/-- Requests to a memory with a page mapped. -/
theorem interface_erases_trees_mapped : ∃ mem : BumpMemory,
    interpPtMem mem 0x3000 = some smallPage ∧ (∃ pt, StoresTree mem pt) ∧
    ∀ (request : PtRequest) (pt : PTDir), StoresTree mem pt → request.Requires mem pt →
      ∃ answer mem', ∀ pt', StoresTree mem pt' → request.run mem pt' = some (answer, mem') := by
  obtain ⟨hinv, hinterp, _⟩ := SpecPt.Init.tree BumpMemory.initial_init
  obtain ⟨mem, _, hcall, _, _, hmap⟩ := exists_mapFrame_smallPage
  have hrun : (PtRequest.mapFrame 0x3000 smallPage).run BumpMemory.initial rootDir =
      some (.done (.ok ()), mem) := by
    rw [PtRequest.run, hcall]
    rfl
  have hstep : (interfaceMachine BumpMemory).step BumpMemory.initial
      (.mapFrame 0x3000 smallPage, .done (.ok ())) mem :=
    ⟨rootDir, ⟨hinv, hinterp⟩, ⟨by decide, smallPage_accepted, smallPage_acceptedMapping _ _,
      by decide⟩, hrun⟩
  have hreach : (interfaceMachine BumpMemory).Reachable mem :=
    Reachable.step (.of_init BumpMemory.initial_init) hstep
  exact ⟨mem, by rw [hmap, PMap.insert_self], interface_erases_trees mem hreach⟩

end NrKernel.PageTable
