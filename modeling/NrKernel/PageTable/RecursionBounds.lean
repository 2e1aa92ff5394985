import NrKernel.Lib.Logged
import NrKernel.PageTable.Resolve

/-!
# The recursion is bounded

`resolve_aux`, `map_frame_aux` and `unmap_aux` call themselves one layer further down for every
directory entry, without a bound on the layer and with their `decreases` clauses commented out
(`impl_u/l2_impl.rs:862`, `989`, `1890`). What ends the recursion is the memory: an entry of the
last layer is never a directory. Here the functions are run without a check of the layer, with as
many nested calls as they are given, and log every call and every computation of an index or a
base.
-/

namespace NrKernel.PageTable

open Lib PtMemory

/-- What a run of one of the functions does. -/
inductive AuxEvent where
  /-- a call at the layer -/
  | call (layer : Nat)
  /-- a call of `index_for_vaddr` -/
  | index (layer base vaddr : Nat)
  /-- a call of `entry_base` -/
  | entryBase (layer base idx : Nat)
  /-- a call beyond those the run was given -/
  | outOfCalls (layer : Nat)
  deriving DecidableEq

/-- Calls are at the four layers; indices and bases are computed without an overflow, an index is
one of the table's, and the entry at the base spans the address. -/
def AuxEvent.Within (vaddr : Nat) : AuxEvent → Prop
  | call layer => layer ≤ 3
  | index layer base addr => addr = vaddr ∧
    archIndexForVaddr layer base addr = some (x86Arch.indexForVaddr layer base addr) ∧
    x86Arch.indexForVaddr layer base addr < 512
  | entryBase layer base idx =>
    archEntryBase layer base idx = some (x86Arch.entryBase layer base idx) ∧
    x86Arch.entryBase layer base idx ≤ vaddr ∧
    vaddr < x86Arch.entryBase layer base idx + x86Arch.entrySize layer
  | outOfCalls _ => False

/-- A call of `index_for_vaddr`. -/
def indexLogged (layer base vaddr : Nat) : Logged AuxEvent Nat := do
  .log (.index layer base vaddr)
  .lift (archIndexForVaddr layer base vaddr)

/-- A call of `entry_base`. -/
def entryBaseLogged (layer base idx : Nat) : Logged AuxEvent Nat := do
  .log (.entryBase layer base idx)
  .lift (archEntryBase layer base idx)

/-- Logging keeps the index. -/
@[simp] theorem indexLogged_result (layer base vaddr : Nat) :
    (indexLogged layer base vaddr).result = archIndexForVaddr layer base vaddr := by
  simp [indexLogged]

/-- Logging keeps the base of the entry. -/
@[simp] theorem entryBaseLogged_result (layer base idx : Nat) :
    (entryBaseLogged layer base idx).result = archEntryBase layer base idx := by
  simp [entryBaseLogged]

private theorem archIndexForVaddr_eq_none {layer : Nat} (h : ¬layer < x86NumLayers)
    (base vaddr : Nat) : archIndexForVaddr layer base vaddr = none := by
  have hnone : x86Arch.layers[layer]? = none := List.getElem?_eq_none (Nat.not_lt.mp h)
  rw [archIndexForVaddr, archEntrySize, hnone]
  rfl

/-- A call beyond the last layer stops. -/
theorem call_eq_none {α : Type} {layer : Nat} (h : ¬layer < x86NumLayers) (base vaddr : Nat)
    (f : Nat → Logged AuxEvent α) :
    (do Logged.log (AuxEvent.call layer); f (← indexLogged layer base vaddr)).result = none := by
  rw [Logged.result_bind, Logged.result_log, Option.bind_some, Logged.result_bind,
    indexLogged_result, archIndexForVaddr_eq_none h, Option.bind_none]

section Exec

variable {M : Type} [PtMemoryOps M] [PhyAddrWidth]

/-- `resolve_aux` (`impl_u/l2_impl.rs:851–920`) with a number of nested calls. -/
def resolveAuxLogged (mem : M) (vaddr : Nat) : Nat → PTDir → Nat → Nat → Nat →
    Logged AuxEvent (Except Unit (Nat × PageTableEntry))
  | 0, _, layer, _, _ => do
    .log (.outOfCalls layer)
    .lift none
  | calls + 1, pt, layer, ptr, base => do
    .log (.call layer)
    let idx ← indexLogged layer base vaddr
    let entry ← .lift (entryAt mem pt layer ptr idx)
    if entry.isMapping then
      let entryBase ← entryBaseLogged layer base idx
      if entry.isDir layer then
        let dirAddr := entry.address.toNat
        let dirPt ← .lift (pt.entry idx)
        resolveAuxLogged mem vaddr calls dirPt (layer + 1) dirAddr entryBase
      else
        let size ← .lift (archEntrySize layer)
        let pte : PageTableEntry := {
          frame := ⟨entry.address.toNat, size⟩
          flags := entry.flags }
        return .ok (entryBase, pte)
    else
      return .error ()

/-- `map_frame_aux` (`impl_u/l2_impl.rs:947–1562`) with a number of nested calls. -/
def mapFrameAuxLogged (vaddr : Nat) (pte : PageTableEntry) : Nat → M → PTDir → Nat → Nat → Nat →
    Logged AuxEvent (Except Unit (PTDir × Set MemRegion) × M)
  | 0, _, _, layer, _, _ => do
    .log (.outOfCalls layer)
    .lift none
  | calls + 1, mem, pt, layer, ptr, base => do
    .log (.call layer)
    let idx ← indexLogged layer base vaddr
    let entry ← .lift (entryAt mem pt layer ptr idx)
    let entryBase ← entryBaseLogged layer base idx
    let entrySize ← .lift (archEntrySize layer)
    if entry.isMapping then
      if entry.isDir layer then
        if entrySize = pte.frame.size then
          return (.error (), mem)
        else
          let dirAddr := entry.address.toNat
          let dirPt ← .lift (pt.entry idx)
          match ← mapFrameAuxLogged vaddr pte calls mem dirPt (layer + 1) dirAddr entryBase with
          | (.ok (dirPtRes, newRegions), mem) =>
            let ptRes : PTDir := {
              region := pt.region
              entries := pt.entries.set idx (some dirPtRes)
              usedRegions := pt.usedRegions ∪ newRegions }
            return (.ok (ptRes, newRegions), mem)
          | (.error e, mem) => return (.error e, mem)
      else
        return (.error (), mem)
    else
      if entrySize = pte.frame.size then
        let newPageEntry := PageDirectoryEntry.newPageEntry layer pte
        let mem ← .lift (writeEntry mem pt ptr idx newPageEntry.entry)
        return (.ok (pt, ∅), mem)
      else
        let ((ptWithEmpty, newDirRegion, _), mem) ←
          .lift (insertEmptyDirectory mem pt layer ptr idx)
        let newDirPt ← .lift (ptWithEmpty.entry idx)
        match ← mapFrameAuxLogged vaddr pte calls mem newDirPt (layer + 1) newDirRegion.base
            entryBase with
        | (.ok (dirPtRes, dirNewRegions), mem) =>
          let ptFinal : PTDir := {
            region := ptWithEmpty.region
            entries := ptWithEmpty.entries.set idx (some dirPtRes)
            usedRegions := ptWithEmpty.usedRegions ∪ dirNewRegions }
          return (.ok (ptFinal, insert newDirRegion dirNewRegions), mem)
        | (.error e, mem) => return (.error e, mem)

/-- `unmap_aux` (`impl_u/l2_impl.rs:1848–2172`) with a number of nested calls. -/
def unmapAuxLogged (vaddr : Nat) : Nat → M → PTDir → Nat → Nat → Nat →
    Logged AuxEvent (Except Unit (PTDir × Set MemRegion) × M)
  | 0, _, _, layer, _, _ => do
    .log (.outOfCalls layer)
    .lift none
  | calls + 1, mem, pt, layer, ptr, base => do
    .log (.call layer)
    let idx ← indexLogged layer base vaddr
    let entry ← .lift (entryAt mem pt layer ptr idx)
    let entryBase ← entryBaseLogged layer base idx
    let entrySize ← .lift (archEntrySize layer)
    if entry.isMapping then
      if entry.isDir layer then
        let dirAddr := entry.address.toNat
        let dirPt ← .lift (pt.entry idx)
        match ← unmapAuxLogged vaddr calls mem dirPt (layer + 1) dirAddr entryBase with
        | (.ok (dirPtRes, removedRegions), mem) =>
          if ← .lift (isDirectoryEmpty mem dirPtRes (layer + 1) dirAddr) then
            let mem ← .lift (writeEntry mem pt ptr idx 0)
            let mem := deallocPage mem ⟨dirAddr, pageSize⟩
            let removedRegions := insert dirPtRes.region removedRegions
            let ptRes : PTDir := {
              region := pt.region
              entries := pt.entries.set idx none
              usedRegions := pt.usedRegions \ removedRegions }
            return (.ok (ptRes, removedRegions), mem)
          else
            let ptRes : PTDir := {
              region := pt.region
              entries := pt.entries.set idx (some dirPtRes)
              usedRegions := pt.usedRegions \ removedRegions }
            return (.ok (ptRes, removedRegions), mem)
        | (.error e, mem) => return (.error e, mem)
      else
        if ← .lift (alignedExec vaddr entrySize) then
          let mem ← .lift (writeEntry mem pt ptr idx 0)
          return (.ok (pt, ∅), mem)
        else
          return (.error (), mem)
    else
      return (.error (), mem)

/-! ## Forgetting the events

A run with as many nested calls as there are layers left returns what the function returns, which
stops at a layer that does not exist.
-/

private theorem resolveAuxLogged_result {calls : Nat} (mem : M) (vaddr : Nat) (pt : PTDir)
    {layer : Nat} (ptr base : Nat) (hcalls : x86NumLayers ≤ calls + layer) :
    (resolveAuxLogged mem vaddr calls pt layer ptr base).result =
      resolveAux mem pt layer ptr base vaddr := by
  induction calls generalizing pt layer ptr base with
  | zero =>
    rw [resolveAux, dif_neg (by omega)]
    rfl
  | succ calls ih =>
    rw [resolveAux, resolveAuxLogged]
    by_cases hlayer : layer < x86NumLayers
    · rw [dif_pos hlayer]
      have hnext : x86NumLayers ≤ calls + (layer + 1) := by omega
      simp only [Logged.result_bind, Logged.result_log, Logged.result_lift, Logged.result_pure,
        Logged.result_ite, indexLogged_result, entryBaseLogged_result, Option.bind_some,
        Option.bind_eq_bind, ih _ _ _ hnext]
      rfl
    · rw [dif_neg hlayer]
      exact call_eq_none hlayer base vaddr _

private theorem mapFrameAuxLogged_result {calls : Nat} (vaddr : Nat) (pte : PageTableEntry)
    (mem : M) (pt : PTDir) {layer : Nat} (ptr base : Nat) (hcalls : x86NumLayers ≤ calls + layer) :
    (mapFrameAuxLogged vaddr pte calls mem pt layer ptr base).result =
      mapFrameAux mem pt layer ptr base vaddr pte := by
  induction calls generalizing mem pt layer ptr base with
  | zero =>
    rw [mapFrameAux, dif_neg (by omega)]
    rfl
  | succ calls ih =>
    rw [mapFrameAux, mapFrameAuxLogged]
    by_cases hlayer : layer < x86NumLayers
    · rw [dif_pos hlayer]
      have hnext : x86NumLayers ≤ calls + (layer + 1) := by omega
      simp only [Logged.result_bind, Logged.result_log, Logged.result_lift, Logged.result_pure,
        Logged.result_ite, indexLogged_result, entryBaseLogged_result, Option.bind_some,
        Option.bind_eq_bind, ih _ _ _ _ hnext]
      apply Option.bind_congr
      intro idx _
      apply Option.bind_congr
      intro entry _
      apply Option.bind_congr
      intro entryBase _
      apply Option.bind_congr
      intro entrySize _
      split
      · split
        · split
          · rfl
          · apply Option.bind_congr
            intro dirPt _
            apply Option.bind_congr
            rintro ⟨res, mem'⟩ _
            cases res with
            | ok res => rfl
            | error e => rfl
        · rfl
      · split
        · rfl
        · apply Option.bind_congr
          rintro ⟨⟨ptWithEmpty, newDirRegion, entry'⟩, mem'⟩ _
          apply Option.bind_congr
          intro newDirPt _
          apply Option.bind_congr
          rintro ⟨res, mem''⟩ _
          cases res with
          | ok res => rfl
          | error e => rfl
    · rw [dif_neg hlayer]
      exact call_eq_none hlayer base vaddr _

private theorem unmapAuxLogged_result {calls : Nat} (vaddr : Nat) (mem : M) (pt : PTDir)
    {layer : Nat} (ptr base : Nat) (hcalls : x86NumLayers ≤ calls + layer) :
    (unmapAuxLogged vaddr calls mem pt layer ptr base).result =
      unmapAux mem pt layer ptr base vaddr := by
  induction calls generalizing mem pt layer ptr base with
  | zero =>
    rw [unmapAux, dif_neg (by omega)]
    rfl
  | succ calls ih =>
    rw [unmapAux, unmapAuxLogged]
    by_cases hlayer : layer < x86NumLayers
    · rw [dif_pos hlayer]
      have hnext : x86NumLayers ≤ calls + (layer + 1) := by omega
      simp only [Logged.result_bind, Logged.result_log, Logged.result_lift, Logged.result_pure,
        Logged.result_ite, indexLogged_result, entryBaseLogged_result, Option.bind_some,
        Option.bind_eq_bind, ih _ _ _ _ hnext]
      apply Option.bind_congr
      intro idx _
      apply Option.bind_congr
      intro entry _
      apply Option.bind_congr
      intro entryBase _
      apply Option.bind_congr
      intro entrySize _
      split
      · split
        · apply Option.bind_congr
          intro dirPt _
          apply Option.bind_congr
          rintro ⟨res, mem'⟩ _
          cases res with
          | ok res =>
            simp only [Logged.result_bind, Logged.result_lift, Logged.result_ite]
            rfl
          | error e => rfl
        · rfl
      · rfl
    · rw [dif_neg hlayer]
      exact call_eq_none hlayer base vaddr _

end Exec

/-! ## One call -/

section Calls

variable {M : Type} [PhyAddrWidth] [PageTableMemory M]

/-- What every call is given: a table of the tree, and an address the table spans. -/
structure CallRequires (mem : M) (pt : PTDir) (layer ptr base vaddr : Nat) : Prop where
  inv : InvAt mem pt layer ptr
  interp_inv : (interpAt mem pt layer base).Inv
  base_le : base ≤ vaddr
  lt_upper : vaddr < x86Arch.upperVaddr layer base
  vaddr_lt : vaddr < maxBase

variable {mem : M} {pt : PTDir} {layer ptr base vaddr : Nat}

/-- The root directory spans every mappable address. -/
theorem PT.Inv.callRequires (hinv : PT.Inv mem pt) (hinterp : (PT.interp mem pt).Inv)
    (hmax : vaddr < maxBase) : CallRequires mem pt 0 (cr3 mem).base 0 vaddr where
  inv := hinv.2
  interp_inv := hinterp
  base_le := Nat.zero_le _
  lt_upper := by
    rw [show x86Arch.upperVaddr 0 0 = maxBase by decide]
    exact hmax
  vaddr_lt := hmax

namespace CallRequires

private theorem index_lt (h : CallRequires mem pt layer ptr base vaddr) :
    x86Arch.indexForVaddr layer base vaddr < x86NumEntries := by
  have hlayer := h.inv.loc.layer_in_range
  have hidx := Arch.indexForVaddr_lt (x86Arch_entrySize_pos hlayer) h.base_le h.lt_upper
  rwa [x86Arch_numEntries hlayer] at hidx

private theorem index_eq (h : CallRequires mem pt layer ptr base vaddr) :
    (indexLogged layer base vaddr).result = some (x86Arch.indexForVaddr layer base vaddr) := by
  rw [indexLogged_result]
  exact archIndexForVaddr_eq h.inv.loc.layer_in_range h.base_le

private theorem entryBase_eq (h : CallRequires mem pt layer ptr base vaddr) :
    (entryBaseLogged layer base (x86Arch.indexForVaddr layer base vaddr)).result =
      some (x86Arch.entryBase layer base (x86Arch.indexForVaddr layer base vaddr)) := by
  have hbase : base < maxBase := Nat.lt_of_le_of_lt h.base_le h.vaddr_lt
  rw [entryBaseLogged_result]
  exact archEntryBase_eq h.inv.loc.layer_in_range hbase h.index_lt

private theorem between (h : CallRequires mem pt layer ptr base vaddr) :
    between vaddr (x86Arch.entryBase layer base (x86Arch.indexForVaddr layer base vaddr))
      (x86Arch.entryBase layer base (x86Arch.indexForVaddr layer base vaddr + 1)) :=
  Arch.between_entryBase (x86Arch_entrySize_pos h.inv.loc.layer_in_range) h.base_le

private theorem call_within (h : CallRequires mem pt layer ptr base vaddr) :
    (AuxEvent.call layer).Within vaddr :=
  Nat.le_of_lt_succ h.inv.loc.layer_in_range

private theorem index_within (h : CallRequires mem pt layer ptr base vaddr) :
    (indexLogged layer base vaddr).All (AuxEvent.Within vaddr) := by
  have heq := h.index_eq
  rw [indexLogged_result] at heq
  exact .bind (.log ⟨rfl, heq, h.index_lt⟩) fun _ _ ↦ .lift _

private theorem entryBase_within (h : CallRequires mem pt layer ptr base vaddr) :
    (entryBaseLogged layer base (x86Arch.indexForVaddr layer base vaddr)).All
      (AuxEvent.Within vaddr) := by
  obtain ⟨hle, hlt⟩ := h.between
  rw [Arch.entryBase_succ] at hlt
  have heq := h.entryBase_eq
  rw [entryBaseLogged_result] at heq
  exact .bind (.log ⟨heq, hle, hlt⟩) fun _ _ ↦ .lift _

/-- A call from the index and the entry on. -/
theorem enter {α : Type} (h : CallRequires mem pt layer ptr base vaddr)
    {f : Nat → Logged AuxEvent α}
    (hf : (f (x86Arch.indexForVaddr layer base vaddr)).All (AuxEvent.Within vaddr)) :
    (do Logged.log (AuxEvent.call layer); f (← indexLogged layer base vaddr)).All
      (AuxEvent.Within vaddr) := by
  apply Logged.All.bind (.log h.call_within)
  intro _ _
  exact .bind_of_eq h.index_eq h.index_within hf

/-- A table that starts at the entry and ends at the next one spans the address. -/
theorem next {mem' : M} {d : PTDir} {ptr' : Nat} (h : CallRequires mem pt layer ptr base vaddr)
    (hinv : InvAt mem' d (layer + 1) ptr')
    (hinterp : (interpAt mem' d (layer + 1)
      (x86Arch.entryBase layer base (x86Arch.indexForVaddr layer base vaddr))).Inv)
    (hupper : (interpAt mem' d (layer + 1)
        (x86Arch.entryBase layer base (x86Arch.indexForVaddr layer base vaddr))).upperVaddr =
      (interpAt mem pt layer base).entryBase (x86Arch.indexForVaddr layer base vaddr + 1)) :
    CallRequires mem' d (layer + 1) ptr'
      (x86Arch.entryBase layer base (x86Arch.indexForVaddr layer base vaddr)) vaddr := by
  rw [Directory.upperVaddr, interpAt_arch, interpAt_layer, interpAt_baseVaddr,
    interpAt_entryBase] at hupper
  exact {
    inv := hinv
    interp_inv := hinterp
    base_le := h.between.1
    lt_upper := by
      rw [hupper]
      exact h.between.2
    vaddr_lt := h.vaddr_lt }

/-- The call in a table the entry leads to. -/
theorem sub (h : CallRequires mem pt layer ptr base vaddr) {entry : PageDirectoryEntry}
    {d : PTDir}
    (hentry : entryAt mem pt layer ptr (x86Arch.indexForVaddr layer base vaddr) = some entry)
    (hmap : entry.isMapping = true) (hdir : entry.isDir layer = true)
    (hd : pt.entry (x86Arch.indexForVaddr layer base vaddr) = some d) :
    CallRequires mem d (layer + 1) entry.address.toNat
      (x86Arch.entryBase layer base (x86Arch.indexForVaddr layer base vaddr)) vaddr := by
  have hloc := h.inv.loc
  have hle3 : layer ≤ 3 := Nat.le_of_lt_succ hloc.layer_in_range
  rw [hloc.entryAt_eq h.index_lt] at hentry
  cases hentry
  obtain ⟨e, hview, haddr⟩ := PageDirectoryEntry.view_of_dir hle3
    (hloc.entry_mb0_bits_are_zero _ h.index_lt) hmap hdir
  have hsub := hloc.interpAt_directory h.index_lt hview hd base
  exact h.next (haddr ▸ h.inv.sub h.index_lt hview hd) (h.interp_inv.sub hsub)
    (h.interp_inv.sub_upperVaddr hsub)

/-- The call in a table that was linked in for it. -/
theorem insert (h : CallRequires mem pt layer ptr base vaddr) (hlayer : layer < 3)
    {ptWithEmpty d : PTDir} {region : MemRegion} {entry : PageDirectoryEntry} {mem' : M}
    (hins : insertEmptyDirectory mem pt layer ptr (x86Arch.indexForVaddr layer base vaddr) =
      some ((ptWithEmpty, region, entry), mem'))
    (hd : ptWithEmpty.entry (x86Arch.indexForVaddr layer base vaddr) = some d) :
    CallRequires mem' d (layer + 1) region.base
      (x86Arch.entryBase layer base (x86Arch.indexForVaddr layer base vaddr)) vaddr := by
  have havail : 0 < allocAvailablePages mem := by
    by_contra hno
    have hnone : allocDirectory mem = none := if_neg hno
    rw [insertEmptyDirectory, hnone] at hins
    cases hins
  obtain ⟨region', mem₁, mem₂, halloc, _, hwrite, _, ins⟩ :=
    insertEmptyDirectory_spec h.inv h.index_lt hlayer havail
  rw [insertEmptyDirectory_eq halloc hwrite] at hins
  cases hins
  rw [withEmpty_entry h.inv h.index_lt] at hd
  cases hd
  have hnext : (interpAt mem pt layer base).layer + 1 <
      (interpAt mem pt layer base).arch.layers.length := by
    rw [interpAt_layer, interpAt_arch, x86Arch_length]
    omega
  obtain ⟨hinv, _, hupper⟩ :=
    h.interp_inv.newEmptyDir hnext (x86Arch.indexForVaddr layer base vaddr)
  rw [← ins.new_dir_interp] at hinv hupper
  exact h.next ins.new_dir_inv hinv hupper

end CallRequires

/-! ## Runs

A run logs nothing but what is within the bounds, and makes no more calls than there are layers
left.
-/

private theorem resolveAuxLogged_within {calls : Nat} (h : CallRequires mem pt layer ptr base vaddr)
    (hcalls : x86NumLayers ≤ calls + layer) :
    (resolveAuxLogged mem vaddr calls pt layer ptr base).All (AuxEvent.Within vaddr) := by
  induction calls generalizing pt layer ptr base with
  | zero =>
    have hlayer := h.inv.loc.layer_in_range
    omega
  | succ calls ih =>
    rw [resolveAuxLogged]
    apply h.enter
    refine Logged.All.bind (.lift _) fun entry hentry ↦ ?_
    split
    · next hmap =>
      refine .bind_of_eq h.entryBase_eq h.entryBase_within ?_
      split
      · next hdir =>
        refine Logged.All.bind (.lift _) fun dirPt hd ↦ ?_
        exact ih (h.sub hentry hmap hdir hd) (by omega)
      · exact .bind (.lift _) fun _ _ ↦ .pure _
    · exact .pure _

private theorem unmapAuxLogged_within {calls : Nat} (h : CallRequires mem pt layer ptr base vaddr)
    (hcalls : x86NumLayers ≤ calls + layer) :
    (unmapAuxLogged vaddr calls mem pt layer ptr base).All (AuxEvent.Within vaddr) := by
  induction calls generalizing pt layer ptr base with
  | zero =>
    have hlayer := h.inv.loc.layer_in_range
    omega
  | succ calls ih =>
    rw [unmapAuxLogged]
    apply h.enter
    refine Logged.All.bind (.lift _) fun entry hentry ↦ ?_
    refine .bind_of_eq h.entryBase_eq h.entryBase_within ?_
    refine Logged.All.bind (.lift _) fun entrySize _ ↦ ?_
    split
    · next hmap =>
      split
      · next hdir =>
        refine Logged.All.bind (.lift _) fun dirPt hd ↦ ?_
        refine Logged.All.bind (ih (h.sub hentry hmap hdir hd) (by omega)) fun r _ ↦ ?_
        -- nothing is logged on the way back
        obtain ⟨res, mem'⟩ := r
        cases res with
        | ok res =>
          refine Logged.All.bind (.lift _) fun empty _ ↦ ?_
          split
          · exact .bind (.lift _) fun _ _ ↦ .pure _
          · exact .pure _
        | error e => exact .pure _
      · refine Logged.All.bind (.lift _) fun al _ ↦ ?_
        split
        · exact .bind (.lift _) fun _ _ ↦ .pure _
        · exact .pure _
    · exact .pure _

/-- A page is mapped at a layer with entries of its size. -/
theorem mapFrameAuxLogged_within {calls : Nat} {pte : PageTableEntry}
    (h : CallRequires mem pt layer ptr base vaddr)
    (hsize : x86Arch.containsEntrySizeAtIndexAtleast pte.frame.size layer)
    (hcalls : x86NumLayers ≤ calls + layer) :
    (mapFrameAuxLogged vaddr pte calls mem pt layer ptr base).All (AuxEvent.Within vaddr) := by
  induction calls generalizing mem pt layer ptr base with
  | zero =>
    have hlayer := h.inv.loc.layer_in_range
    omega
  | succ calls ih =>
    rw [mapFrameAuxLogged]
    apply h.enter
    refine Logged.All.bind (.lift _) fun entry hentry ↦ ?_
    refine .bind_of_eq h.entryBase_eq h.entryBase_within ?_
    refine .bind_of_eq (archEntrySize_eq h.inv.loc.layer_in_range) (.lift _) ?_
    split
    · next hmap =>
      split
      · next hdir =>
        split
        · exact .pure _
        · next hne =>
          have hsub := Arch.containsEntrySizeAtIndexAtleast_succ hsize hne
          refine Logged.All.bind (.lift _) fun dirPt hd ↦ ?_
          refine Logged.All.bind (ih (h.sub hentry hmap hdir hd) hsub (by omega)) fun r _ ↦ ?_
          obtain ⟨res, mem'⟩ := r
          cases res with
          | ok res => exact .pure _
          | error e => exact .pure _
      · exact .pure _
    · split
      · exact .bind (.lift _) fun _ _ ↦ .pure _
      · next hne =>
        have hsub := Arch.containsEntrySizeAtIndexAtleast_succ hsize hne
        have hlayer : layer < 3 := by
          obtain ⟨i, hle, hlt, _⟩ := hsub
          rw [x86Arch_length] at hlt
          omega
        refine Logged.All.bind (.lift _) fun r hins ↦ ?_
        obtain ⟨⟨ptWithEmpty, region, entry'⟩, mem'⟩ := r
        refine Logged.All.bind (.lift _) fun newDirPt hd ↦ ?_
        refine Logged.All.bind (ih (h.insert hlayer hins hd) hsub (by omega)) fun r _ ↦ ?_
        obtain ⟨res, mem''⟩ := r
        cases res with
        | ok res => exact .pure _
        | error e => exact .pure _

/-! ## Returning -/

/-- No page starts at an address that is not aligned to the smallest page size. -/
theorem CallRequires.unmapAux_eq_error (n : Nat) (hn : n = x86NumLayers - layer)
    (h : CallRequires mem pt layer ptr base vaddr) (hal : ¬aligned vaddr l3EntrySize) :
    unmapAux mem pt layer ptr base vaddr = some (.error (), mem) := by
  induction n generalizing pt layer ptr base with
  | zero =>
    have hlt := h.inv.loc.layer_in_range
    omega
  | succ n ih =>
    have hloc := h.inv.loc
    have hlt := hloc.layer_in_range
    have hindex := h.index_eq
    have hbase := h.entryBase_eq
    have hentry := hloc.entryAt_eq h.index_lt
    rw [indexLogged_result] at hindex
    rw [entryBaseLogged_result] at hbase
    rw [unmapAux, dif_pos hlt, hindex]
    simp only [Option.bind_eq_bind, Option.bind_some, hentry, hbase, archEntrySize_eq hlt]
    split
    · next hmap =>
      split
      · next hdir =>
        obtain ⟨e, hview, _⟩ := PageDirectoryEntry.view_of_dir (Nat.le_of_lt_succ hlt)
          (hloc.entry_mb0_bits_are_zero _ h.index_lt) hmap hdir
        obtain ⟨d, hd⟩ := hloc.exists_entry h.index_lt hview
        rw [hd, Option.bind_some, ih (by omega) (h.sub hentry hmap hdir hd)]
        rfl
      · have hdvd : l3EntrySize ∣ x86Arch.entrySize layer :=
          x86Arch_inv.entrySize_dvd (Nat.le_of_lt_succ hlt) (show 3 < 4 by decide)
        have hne : ¬aligned vaddr (x86Arch.entrySize layer) := by
          intro h'
          rw [aligned_iff_dvd] at h' hal
          exact hal (hdvd.trans h')
        unfold alignedExec
        rw [if_neg (Nat.ne_of_gt (x86Arch_entrySize_pos hlt)), Option.bind_some,
          if_neg (fun hc ↦ hne (beq_iff_eq.mp hc))]
        rfl
    · rfl

/-- `unmap_aux` returns for every address that the root directory spans. -/
theorem PT.Inv.unmapAux_isSome (hinv : PT.Inv mem pt) (hinterp : (PT.interp mem pt).Inv)
    (hmax : vaddr < maxBase) : (unmapAux mem pt 0 (cr3 mem).base 0 vaddr).isSome := by
  have h := hinv.callRequires hinterp hmax
  by_cases hal : aligned vaddr l3EntrySize
  · have haccepted : (PT.interp mem pt).AcceptedUnmap vaddr := by
      refine ⟨⟨?_, ?_⟩, l3EntrySize, ?_, hal⟩
      · change (PT.interp mem pt).baseVaddr ≤ vaddr
        rw [PT.interp, interpAt_baseVaddr]
        exact h.base_le
      · change vaddr < (PT.interp mem pt).upperVaddr
        rw [Directory.upperVaddr, PT.interp, interpAt_arch, interpAt_layer, interpAt_baseVaddr]
        exact h.lt_upper
      · change (PT.interp mem pt).arch.containsEntrySize _
        rw [PT.interp, interpAt_arch]
        exact ⟨3, by decide, by decide, rfl⟩
    obtain ⟨_, _, hcall, _⟩ := unmapAux_run _ rfl ⟨hinv.2, hinterp, haccepted, hmax⟩
    rw [hcall]
    rfl
  · rw [h.unmapAux_eq_error _ rfl hal]
    rfl

end Calls

/-! ## Main result -/

section Main

variable {M : Type} [PhyAddrWidth] [PageTableMemory M]

/-- A run is within the bounds and complete: it returns what the function returns. -/
structure BoundedRun {α : Type} (vaddr : Nat) (run : Logged AuxEvent α) (value : Option α) :
    Prop where
  within : run.All (AuxEvent.Within vaddr)
  result_eq : run.result = value

/-- The three functions run within the bounds from the root directory, with the nested calls they
are given, and return. `map_frame_aux` returns if there are the pages it asks for. -/
structure RecursionBounded (mem : M) (pt : PTDir) (vaddr calls : Nat) : Prop where
  resolve : BoundedRun vaddr (resolveAuxLogged mem vaddr calls pt 0 (cr3 mem).base 0)
    (resolveAux mem pt 0 (cr3 mem).base 0 vaddr)
  resolve_returns : (resolveAux mem pt 0 (cr3 mem).base 0 vaddr).isSome
  unmap : BoundedRun vaddr (unmapAuxLogged vaddr calls mem pt 0 (cr3 mem).base 0)
    (unmapAux mem pt 0 (cr3 mem).base 0 vaddr)
  unmap_returns : (unmapAux mem pt 0 (cr3 mem).base 0 vaddr).isSome
  map : ∀ pte, AcceptedMapping pte → (PT.interp mem pt).AcceptedMapping vaddr pte →
    BoundedRun vaddr (mapFrameAuxLogged vaddr pte calls mem pt 0 (cr3 mem).base 0)
      (mapFrameAux mem pt 0 (cr3 mem).base 0 vaddr pte)
  map_returns : ∀ pte, AcceptedMapping pte → (PT.interp mem pt).AcceptedMapping vaddr pte →
    3 ≤ allocAvailablePages mem → (mapFrameAux mem pt 0 (cr3 mem).base 0 vaddr pte).isSome

/-- For every mappable address four nested calls are enough. -/
theorem recursion_bounded (mem : M) (pt : PTDir) (vaddr calls : Nat) (hinv : PT.Inv mem pt)
    (hinterp : (PT.interp mem pt).Inv) (hmax : vaddr < maxBase) (hcalls : 4 ≤ calls) :
    RecursionBounded mem pt vaddr calls := by
  have h := hinv.callRequires hinterp hmax
  have hcalls : x86NumLayers ≤ calls + 0 := hcalls
  constructor
  · exact ⟨resolveAuxLogged_within h hcalls, resolveAuxLogged_result mem vaddr pt _ 0 hcalls⟩
  · have hcall : resolveAux mem pt 0 (cr3 mem).base 0 vaddr = _ := hinv.resolve_eq hinterp hmax
    rw [hcall]
    rfl
  · exact ⟨unmapAuxLogged_within h hcalls, unmapAuxLogged_result vaddr mem pt _ 0 hcalls⟩
  · exact hinv.unmapAux_isSome hinterp hmax
  · intro pte _ ha
    have hsize := ha.valid_size
    rw [PT.interp, interpAt_arch, interpAt_layer] at hsize
    exact ⟨mapFrameAuxLogged_within h hsize hcalls,
      mapFrameAuxLogged_result vaddr pte mem pt _ 0 hcalls⟩
  · intro pte hpte ha hpages
    obtain ⟨_, _, hcall, _⟩ := mapFrameAux_run _ rfl
      ⟨hinv.2, hinterp, ha, hpages, hpte.frame_base_le, hpte.size_layer, hmax⟩
    rw [hcall]
    rfl

end Main

section Example

attribute [local instance] widePhyAddr

/-- Calls about a page that is mapped. -/
theorem recursion_bounded_mapped : ∃ (mem : BumpMemory) (pt : PTDir),
    interpPtMem mem = PMap.empty.insert 0x3000 smallPage ∧ RecursionBounded mem pt 0x3abc 4 := by
  obtain ⟨mem, pt, hinv, hinterp, hmap⟩ := exists_mapped
  exact ⟨mem, pt, hmap, recursion_bounded mem pt 0x3abc 4 hinv hinterp (by decide) (by decide)⟩

/-- Mapping a page in an empty root directory goes down to the last layer. -/
example : (mapFrameAuxLogged 0x3000 smallPage 4 BumpMemory.initial rootDir 0
      (cr3 BumpMemory.initial).base 0).events =
    [.call 0, .index 0 0 0x3000, .entryBase 0 0 0, .call 1, .index 1 0 0x3000, .entryBase 1 0 0,
      .call 2, .index 2 0 0x3000, .entryBase 2 0 0, .call 3, .index 3 0 0x3000,
      .entryBase 3 0 3] := by
  decide +kernel

end Example

end NrKernel.PageTable
