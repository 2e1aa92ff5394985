import Mathlib.Data.Set.Card
import NrKernel.PageTable.PageAccounting
import NrKernel.PageTable.SingleWrite

/-!
# The allocation budget of `map_frame`

A successful `map_frame` allocates one page for each directory that is missing on the path
from the root to the layer of the page size, and a failed one allocates none. What is missing
is read off the hardware view before the call, not off the run.
-/

namespace NrKernel.PageTable

open Lib PtMemory

/-! ## Missing directories -/

/-- The entries an address selects on the way down from a table, one for each layer. -/
def pathFrom (layer vaddr n : Nat) : List Nat :=
  (List.range n).map fun k ↦ layerIndex (layer + k) vaddr

/-- A path selects its first entry and goes on one layer down. -/
theorem pathFrom_succ (layer vaddr n : Nat) :
    pathFrom layer vaddr (n + 1) = layerIndex layer vaddr :: pathFrom (layer + 1) vaddr n := by
  unfold pathFrom
  rw [List.range_succ_eq_map, List.map_cons, List.map_map, Nat.add_zero]
  apply congrArg
  apply List.map_congr_left
  intro k _
  have hadd : layer + 1 + k = layer + Nat.succ k := by omega
  rw [hadd]
  rfl

section Missing

variable {M : Type} [PtMemoryOps M] [PhyAddrWidth]

/-- The layers from the root to that of the page size at which the path of the address has no
directory. -/
def missingDirectories (mem : M) (vaddr size : Nat) : List Nat :=
  (List.range x86NumLayers).filter fun layer ↦
    (directoryPage mem (pathFrom 0 vaddr layer)).isNone &&
      decide (0 < layer ∧ size ≤ x86Arch.entrySize layer)

/-- The number of missing directories in the `n` layers below a table: all of them below the
first that is missing. -/
def missingBelow (mem : M) (vaddr : Nat) : (n layer ptr : Nat) → Nat
  | 0, _, _ => 0
  | n + 1, layer, ptr =>
    match readEntry mem ptr layer (layerIndex layer vaddr) with
    | .directory e => missingBelow mem vaddr n (layer + 1) e.addr
    | _ => n + 1

private theorem missingBelow_le (mem : M) (vaddr n layer ptr : Nat) :
    missingBelow mem vaddr n layer ptr ≤ n := by
  induction n generalizing layer ptr with
  | zero => exact Nat.le_refl 0
  | succ n ih =>
    rw [missingBelow]
    split
    · exact Nat.le_succ_of_le (ih _ _)
    · exact Nat.le_refl _

private theorem missingBelow_directory {mem : M} {vaddr layer ptr : Nat} (n : Nat)
    {e : GhostDirectory} (h : readEntry mem ptr layer (layerIndex layer vaddr) = .directory e) :
    missingBelow mem vaddr (n + 1) layer ptr = missingBelow mem vaddr n (layer + 1) e.addr := by
  rw [missingBelow, h]

/-- Where the entry of the address is no directory, every directory below is missing. -/
theorem missingBelow_of_not_directory {mem : M} {vaddr layer ptr : Nat} (n : Nat)
    (h : (readEntry mem ptr layer (layerIndex layer vaddr)).isDirectory = false) :
    missingBelow mem vaddr n layer ptr = n := by
  cases n with
  | zero => rfl
  | succ n =>
    rw [missingBelow]
    split
    · rename_i e he
      rw [he] at h
      cases h
    · rfl

/-- A record is not part of what is missing. -/
theorem missingBelow_start (mem : M) (vaddr n layer ptr : Nat) :
    missingBelow (Recorded.start mem) vaddr n layer ptr = missingBelow mem vaddr n layer ptr := by
  induction n generalizing layer ptr with
  | zero => rfl
  | succ n ih =>
    have hread : readEntry (Recorded.start mem) ptr layer (layerIndex layer vaddr) =
        readEntry mem ptr layer (layerIndex layer vaddr) := rfl
    rw [missingBelow, missingBelow, hread]
    simp only [ih]

private theorem length_filter_tableAt (mem : M) (vaddr n layer ptr : Nat) :
    ((List.range n).filter fun k ↦
      (tableAt mem layer ptr (pathFrom layer vaddr (k + 1))).isNone).length =
      missingBelow mem vaddr n layer ptr := by
  induction n generalizing layer ptr with
  | zero => rfl
  | succ n ih =>
    have hidx : layerIndex layer vaddr < x86NumEntries := Nat.mod_lt _ (by decide)
    cases hdir : (readEntry mem ptr layer (layerIndex layer vaddr)).isDirectory with
    | false =>
      have hnone : ∀ k, (tableAt mem layer ptr (pathFrom layer vaddr (k + 1))).isNone = true := by
        intro k
        rw [pathFrom_succ, tableAt, if_pos hidx]
        split
        · rename_i e he
          rw [he] at hdir
          cases hdir
        · rfl
      rw [missingBelow_of_not_directory (n + 1) hdir]
      simp only [hnone, List.filter_true, List.length_range]
    | true =>
      obtain ⟨e, hread⟩ : ∃ e, readEntry mem ptr layer (layerIndex layer vaddr) = .directory e := by
        cases hread : readEntry mem ptr layer (layerIndex layer vaddr) with
        | directory e => exact ⟨e, rfl⟩
        | page p =>
          rw [hread] at hdir
          cases hdir
        | empty =>
          rw [hread] at hdir
          cases hdir
      have hstep : ∀ k, tableAt mem layer ptr (pathFrom layer vaddr (k + 1)) =
          tableAt mem (layer + 1) e.addr (pathFrom (layer + 1) vaddr k) := by
        intro k
        rw [pathFrom_succ, tableAt, if_pos hidx, hread]
      have hzero : (tableAt mem (layer + 1) e.addr (pathFrom (layer + 1) vaddr 0)).isNone = false :=
        rfl
      simp only [hstep]
      rw [List.range_succ_eq_map, List.filter_cons, hzero, if_neg Bool.false_ne_true,
        List.filter_map, List.length_map, missingBelow_directory n hread, ← ih]
      rfl

/-- The directories missing for a page of layer `last` are those missing in the layers below
the root down to that layer. -/
theorem length_missingDirectories (mem : M) (vaddr : Nat) {last size : Nat} (hpos : 0 < last)
    (hlast : last < x86NumLayers) (hsize : x86Arch.entrySize last = size) :
    (missingDirectories mem vaddr size).length =
      missingBelow mem vaddr last 0 (cr3 mem).base := by
  have hneeded : ((List.range x86NumLayers).filter fun layer ↦
      decide (0 < layer ∧ size ≤ x86Arch.entrySize layer)) = (List.range last).map Nat.succ := by
    have hcases : last = 1 ∨ last = 2 ∨ last = 3 := by
      change last < 4 at hlast
      omega
    subst hsize
    rcases hcases with rfl | rfl | rfl <;> decide
  unfold missingDirectories
  rw [← List.filter_filter, hneeded, List.filter_map, List.length_map, ← length_filter_tableAt]
  unfold directoryPage
  simp only [Option.isNone_map]
  rfl

end Missing

/-! ## Allocations of a record -/

/-- The number of pages allocated on the way. -/
def allocations {M : Type} (record : List (MemOp × M)) : Nat :=
  record.countP fun p ↦ p.1 = .allocPage

/-- Every allocation on the way from `mem` finds an available page. -/
def AllocsCovered {M : Type} [PtMemoryOps M] : M → List (MemOp × M) → Prop
  | _, [] => True
  | mem, (op, mem') :: record =>
    (op = .allocPage → 0 < allocAvailablePages mem) ∧ AllocsCovered mem' record

/-- A memory operation with the memory it leaves behind, as its contract describes them
(`spec_t/mem.rs:81–144`). How many pages are available after `dealloc_page` is left open there;
here no fewer than before. -/
inductive MemOp.Contract {M : Type} [PtMemoryOps M] [PhyAddrWidth] (mem : M) : MemOp → M → Prop
  | allocPage {r : MemRegion} {mem' : M} (hpages : 0 < allocAvailablePages mem)
      (h : AllocEnsures mem r mem') : Contract mem .allocPage mem'
  | deallocPage {r : MemRegion} {mem' : M} (h : DeallocEnsures mem r mem')
      (hpages : allocAvailablePages mem ≤ allocAvailablePages mem') :
      Contract mem .deallocPage mem'
  | write {idx : Nat} {region : MemRegion} {value : BitVec 64} {mem' : M}
      (h : WriteEnsures mem idx region value mem') : Contract mem .write mem'

/-- Memory operations made one after the other. -/
inductive MemOp.Run {M : Type} [PtMemoryOps M] [PhyAddrWidth] : M → List (MemOp × M) → M → Prop
  | nil (mem : M) : Run mem [] mem
  | cons {mem mem₁ mem' : M} {op : MemOp} {ops : List (MemOp × M)}
      (h : op.Contract mem mem₁) (hrest : Run mem₁ ops mem') : Run mem ((op, mem₁) :: ops) mem'

section Operations

variable {M : Type} [PtMemoryOps M] [PhyAddrWidth] {mem mem' : M} {ops : List (MemOp × M)}

/-- Operations take no more pages than they allocate. -/
theorem MemOp.Run.available_le (h : MemOp.Run mem ops mem') :
    allocAvailablePages mem ≤ allocAvailablePages mem' + allocations ops := by
  induction h with
  | nil => exact Nat.le_refl _
  | cons h hrest ih =>
    unfold allocations at ih ⊢
    rw [List.countP_cons]
    cases h with
    | allocPage hpages h =>
      rw [h.available] at ih
      simp only [decide_true, if_true]
      omega
    | deallocPage h hpages => exact hpages.trans ih
    | write h =>
      rw [h.available] at ih
      exact ih

/-- Operations that free nothing take the pages they allocate. -/
theorem MemOp.Run.available_eq (h : MemOp.Run mem ops mem')
    (hkept : ∀ op ∈ ops, op.1 ≠ .deallocPage) :
    allocAvailablePages mem' + allocations ops = allocAvailablePages mem := by
  induction h with
  | nil => rfl
  | cons h hrest ih =>
    obtain ⟨hop, hkept⟩ := List.forall_mem_cons.mp hkept
    have ih := ih hkept
    unfold allocations at ih ⊢
    rw [List.countP_cons]
    cases h with
    | allocPage hpages h =>
      rw [h.available] at ih
      simp only [decide_true, if_true]
      omega
    | deallocPage h hpages => exact absurd rfl hop
    | write h =>
      rw [h.available] at ih
      exact ih

end Operations

private theorem allocDirectory_available {M : Type} [PtMemoryOps M] {mem mem' : M}
    {region : MemRegion}
    (h : allocDirectory mem = some (region, mem')) : 0 < allocAvailablePages mem := by
  unfold allocDirectory at h
  split at h
  · assumption
  · cases h

/-! ## What a run allocates -/

section Runs

variable {M : Type} [PhyAddrWidth] [PageTableMemory M]

variable {mem : M} {pt : PTDir} {layer ptr base vaddr last : Nat} {pte : PageTableEntry}

private theorem MapAuxRequires.layer_le (h : MapAuxRequires mem pt layer ptr base vaddr pte)
    (hlast : last < x86NumLayers) (hsize : x86Arch.entrySize last = pte.frame.size) :
    layer ≤ last := by
  have hvalid := h.accepted.valid_size
  rw [interpAt_arch, interpAt_layer] at hvalid
  obtain ⟨i, hle, hlt, hi⟩ := hvalid
  have heq : i = last := x86Arch_entrySize_injective hlt hlast (hi.trans hsize.symm)
  omega

private theorem MapAuxRequires.layers_left (h : MapAuxRequires mem pt layer ptr base vaddr pte)
    (hlast : last < x86NumLayers) (hsize : x86Arch.entrySize last = pte.frame.size)
    (hne : x86Arch.entrySize layer ≠ pte.frame.size) :
    last - layer = last - (layer + 1) + 1 := by
  have hle := h.layer_le hlast hsize
  have hneq : layer ≠ last := by
    rintro rfl
    exact hne hsize
  omega

private theorem MapAuxRequires.readEntry_eq (h : MapAuxRequires mem pt layer ptr base vaddr pte) :
    readEntry mem ptr layer (layerIndex layer vaddr) =
      viewAt mem pt layer (x86Arch.indexForVaddr layer base vaddr) := by
  have hlayer := h.inv.loc.layer_in_range
  have hbase := h.interp_inv.loc.base_aligned
  rw [Directory.entrySize, Directory.numEntries, interpAt_layer, interpAt_baseVaddr,
    interpAt_arch] at hbase
  have hupper := h.accepted.in_bounds.2
  rw [Directory.upperVaddr, interpAt_arch, interpAt_layer, interpAt_baseVaddr] at hupper
  have hpos := h.accepted.size_pos h.interp_inv
  rw [h.inv.loc.readEntry_eq, layerIndex_eq hlayer hbase h.base_le (by omega)]

private theorem InsertEnsures.missingBelow_eq {mem' : M} {idx : Nat} {region : MemRegion}
    (ins : InsertEnsures mem pt layer ptr idx region mem') (vaddr n : Nat) :
    missingBelow mem' vaddr n (layer + 1) region.base = n := by
  have hidx : layerIndex (layer + 1) vaddr < x86NumEntries := Nat.mod_lt _ (by decide)
  apply missingBelow_of_not_directory
  rw [ins.new_dir_inv.loc.readEntry_eq, ins.new_dir_inv.loc.ghost_pt_matches_structure _ hidx,
    PTDir.entry_empty]
  rfl

private theorem InsertEnsures.notMem {mem₁ mem' : M} {idx : Nat} {dRes : PTDir}
    {region : MemRegion} {newRegions : Set MemRegion} {l q b : Nat}
    (ins : InsertEnsures mem pt layer ptr idx region mem₁)
    (sub : MapRun vaddr pte mem₁ (PTDir.empty region) l q b (.ok (dRes, newRegions)) mem') :
    region ∉ newRegions := by
  intro hin
  apply sub.outcome.1.fresh region hin
  rw [ins.regions_eq]
  exact Set.mem_insert _ _

/-- What a run of `map_frame_aux` takes from the free pages: one page for each directory that
is missing in the layers below, all of them new. -/
theorem MapRun.budget {mem' : M} {ptRes : PTDir} {newRegions : Set MemRegion}
    (hlast : last < x86NumLayers) (hsize : x86Arch.entrySize last = pte.frame.size)
    (run : MapRun vaddr pte mem pt layer ptr base (.ok (ptRes, newRegions)) mem') :
    newRegions.Finite ∧ newRegions.ncard = missingBelow mem vaddr (last - layer) layer ptr ∧
      allocAvailablePages mem' + newRegions.ncard = allocAvailablePages mem := by
  generalize hres : Except.ok (ptRes, newRegions) = res at run
  induction run generalizing ptRes newRegions with
  | occupied => cases hres
  | directoryRefused => cases hres
  | page h hview hsize' hwrite hw =>
    cases hres
    have heq := x86Arch_entrySize_injective h.inv.loc.layer_in_range hlast
      (hsize'.trans hsize.symm)
    refine ⟨Set.finite_empty, ?_, ?_⟩
    · rw [Set.ncard_empty, heq, Nat.sub_self, missingBelow]
    · rw [Set.ncard_empty, Nat.add_zero, hw.available]
  | directory h hne hview hd sub ih =>
    cases hres
    obtain ⟨hfin, hcard, havail⟩ := ih rfl
    refine ⟨hfin, ?_, havail⟩
    rw [hcard, h.layers_left hlast hsize hne,
      missingBelow_directory _ (h.readEntry_eq.trans hview)]
  | @insert mem mem₁ mem₂ mem' pt dRes layer ptr base region new h hne hview halloc ha hwrite hw
      ins sub ih =>
    cases hres
    obtain ⟨hfin, hcard, havail⟩ := ih rfl
    have hpos := allocDirectory_available halloc
    have hnot := ins.notMem sub
    have hempty : (readEntry mem ptr layer (layerIndex layer vaddr)).isDirectory = false := by
      rw [h.readEntry_eq, hview]
      rfl
    rw [ins.missingBelow_eq] at hcard
    refine ⟨hfin.insert region, ?_, ?_⟩
    · rw [Set.ncard_insert_of_notMem hnot hfin, hcard, h.layers_left hlast hsize hne,
        missingBelow_of_not_directory _ hempty]
    · rw [Set.ncard_insert_of_notMem hnot hfin]
      rw [ins.available] at havail
      omega

/-- A recorded run allocates as many pages as the tree gains, each when one is available. -/
theorem MapRun.record_allocations {s s' : Recorded M} {ptRes : PTDir}
    {newRegions : Set MemRegion}
    (run : MapRun vaddr pte s pt layer ptr base (.ok (ptRes, newRegions)) s') :
    newRegions.Finite ∧ ∃ ops, s'.record = s.record ++ ops ∧ AllocsCovered s.mem ops ∧
      allocations ops = newRegions.ncard := by
  generalize hres : Except.ok (ptRes, newRegions) = res at run
  induction run generalizing ptRes newRegions with
  | occupied => cases hres
  | directoryRefused => cases hres
  | page h hview hsize hwrite hw =>
    cases hres
    refine ⟨Set.finite_empty, _, writeEntry_record hwrite, ?_, ?_⟩
    · simp [AllocsCovered]
    · simp [allocations]
  | directory h hne hview hd sub ih =>
    cases hres
    exact ih rfl
  | @insert s s₁ s₂ s' pt dRes layer ptr base region new h hne hview halloc ha hwrite hw ins sub
      ih =>
    cases hres
    obtain ⟨hfin, ops, hrecord, hcovered, hallocs⟩ := ih rfl
    have hpos : 0 < allocAvailablePages s := allocDirectory_available halloc
    refine ⟨hfin.insert region, [(.allocPage, s₁.mem), (.write, s₂.mem)] ++ ops, ?_, ?_, ?_⟩
    · rw [hrecord, writeEntry_record hwrite, allocDirectory_record halloc]
      simp only [List.append_assoc]
      rfl
    · exact ⟨fun _ ↦ hpos, by simp, hcovered⟩
    · rw [Set.ncard_insert_of_notMem (ins.notMem sub) hfin, ← hallocs]
      unfold allocations
      rw [List.countP_append]
      simp
      omega

/-- A run of `map_frame_aux` is made of memory operations that allocate one page for each new
directory. -/
theorem MapRun.exists_memOps {mem' : M} {ptRes : PTDir} {newRegions : Set MemRegion}
    (run : MapRun vaddr pte mem pt layer ptr base (.ok (ptRes, newRegions)) mem') :
    newRegions.Finite ∧ ∃ ops, MemOp.Run mem ops mem' ∧ allocations ops = newRegions.ncard := by
  generalize hres : Except.ok (ptRes, newRegions) = res at run
  induction run generalizing ptRes newRegions with
  | occupied => cases hres
  | directoryRefused => cases hres
  | page h hview hsize hwrite hw =>
    cases hres
    refine ⟨Set.finite_empty, _, .cons (.write hw) (.nil _), ?_⟩
    simp [allocations]
  | directory h hne hview hd sub ih =>
    cases hres
    exact ih rfl
  | insert h hne hview halloc ha hwrite hw ins sub ih =>
    cases hres
    obtain ⟨hfin, ops, hrun, hallocs⟩ := ih rfl
    refine ⟨hfin.insert _, _,
      .cons (.allocPage (allocDirectory_available halloc) ha) (.cons (.write hw) hrun), ?_⟩
    rw [Set.ncard_insert_of_notMem (ins.notMem sub) hfin, ← hallocs]
    simp [allocations]

/-- `map_frame` makes memory operations that allocate no more pages than directories are
missing. -/
theorem exists_memOps_of_mapFrame (hinv : PT.Inv mem pt) (hinterp : (PT.interp mem pt).Inv)
    (hpages : 3 ≤ allocAvailablePages mem) (hpte : AcceptedMapping pte)
    (ha : (PT.interp mem pt).AcceptedMapping vaddr pte) (hmax : vaddr < maxBase)
    {result : Except Unit Unit} {mem' : M} {pt' : PTDir}
    (hcall : mapFrame mem pt vaddr pte = some (result, mem', pt')) :
    ∃ ops, MemOp.Run mem ops mem' ∧
      allocations ops ≤ (missingDirectories mem vaddr pte.frame.size).length := by
  obtain ⟨last, hpos, hlast, hsize⟩ := hpte.size_layer
  rcases mapFrame_run hinv hinterp hpages hpte ha hmax with
    ⟨ptRes, newRegions, mem₁, hrun, run⟩ | ⟨hrun, _⟩
  · cases hcall.symm.trans hrun
    obtain ⟨_, ops, hops, hallocs⟩ := run.exists_memOps
    refine ⟨ops, hops, ?_⟩
    rw [hallocs, (run.budget hlast hsize).2.1, length_missingDirectories mem vaddr hpos hlast hsize]
    exact Nat.le_refl _
  · cases hcall.symm.trans hrun
    exact ⟨[], .nil mem, Nat.zero_le _⟩

/-! ## Main result -/

variable (mem pt vaddr pte) in
/-- `map_frame` with its record: a call that succeeds allocates one page for each missing
directory, and at most three, a call that fails allocates none, and no allocation finds the
free pages used up. -/
def MapsWithinBudget : Prop :=
  ∃ result mem' pt' record, mapFrame mem pt vaddr pte = some (result, mem', pt') ∧
    mapFrame (Recorded.start mem) pt vaddr pte = some (result, ⟨mem', record⟩, pt') ∧
    AllocsCovered mem record ∧
    (result = .ok () →
      allocations record = (missingDirectories mem vaddr pte.frame.size).length ∧
      allocations record ≤ 3 ∧
      allocAvailablePages mem' + allocations record = allocAvailablePages mem ∧
      ∃ new : Set MemRegion, regions mem' = regions mem ∪ new ∧ (∀ r ∈ new, r ∉ regions mem) ∧
        new.Finite ∧ new.ncard = allocations record) ∧
    (result = .error () → record = [] ∧ mem' = mem)

end Runs

/-- The allocation budget of `map_frame` is exact. -/
theorem mapFrame_within_budget {M : Type} [PhyAddrWidth] [PageTableMemory M] (mem : M) (pt : PTDir)
    (vaddr : Nat) (pte : PageTableEntry) (hinv : PT.Inv mem pt)
    (hinterp : (PT.interp mem pt).Inv) (hpages : 3 ≤ allocAvailablePages mem)
    (hpte : AcceptedMapping pte) (ha : (PT.interp mem pt).AcceptedMapping vaddr pte)
    (hmax : vaddr < maxBase) : MapsWithinBudget mem pt vaddr pte := by
  obtain ⟨last, hpos, hlast, hsize⟩ := hpte.size_layer
  rcases mapFrame_run_recorded hinv hinterp hpages hpte ha hmax with
    ⟨ptRes, newRegions, s', hcall, hspec, hrun⟩ | ⟨hcall, hspec⟩
  · obtain ⟨hfin, hcard, havail⟩ := hrun.budget hlast hsize
    obtain ⟨_, ops, hrecord, hcovered, hallocs⟩ := hrun.record_allocations
    obtain ⟨hens, _⟩ := hrun.outcome
    have hops : s'.record = ops := hrecord
    have hmissing : newRegions.ncard = (missingDirectories mem vaddr pte.frame.size).length := by
      rw [hcard, length_missingDirectories mem vaddr hpos hlast hsize]
      exact missingBelow_start mem vaddr last 0 (cr3 mem).base
    refine ⟨_, _, _, s'.record, hspec, hcall, ?_, fun _ ↦ ⟨?_, ?_, ?_, newRegions, ?_⟩, fun h ↦ ?_⟩
    · rw [hops]
      exact hcovered
    · rw [hops, hallocs, hmissing]
    · have hle := missingBelow_le mem vaddr last 0 (cr3 mem).base
      rw [hops, hallocs, hmissing, length_missingDirectories mem vaddr hpos hlast hsize]
      change last < 4 at hlast
      omega
    · rw [hops, hallocs]
      exact havail
    · rw [hops, hallocs]
      exact ⟨hens.regions_eq, hens.fresh, hfin, rfl⟩
    · cases h
  · refine ⟨_, _, _, [], hspec, hcall, trivial, fun h ↦ ?_, fun _ ↦ ⟨rfl, rfl⟩⟩
    cases h

attribute [local instance] widePhyAddr in
/-- The first small page needs a directory on each of the three layers below the root. -/
theorem mapFrame_within_budget_initial :
    MapsWithinBudget BumpMemory.initial rootDir 0x3000 smallPage := by
  obtain ⟨hinv, hinterp, _⟩ := SpecPt.Init.tree BumpMemory.initial_init
  exact mapFrame_within_budget BumpMemory.initial rootDir 0x3000 smallPage hinv hinterp
    (by decide) smallPage_accepted (smallPage_acceptedMapping _ _) (by decide)

end NrKernel.PageTable
