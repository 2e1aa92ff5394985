import NrKernel.PageTable.Refinement

/-!
# A memory that records its operations

The exec functions are generic in the memory, so what they do to memory on the way is seen by
running them on a memory that records every operation that changes it, with the memory the
operation left behind. The recording memory keeps the contracts of the memory it records, and
recording changes nothing that the exec functions compute.
-/

namespace NrKernel.PageTable

open Lib PtMemory

/-- The operations of `PageTableMemory` that change the memory (`spec_t/mem.rs:81–144`). -/
inductive MemOp where
  | allocPage
  | deallocPage
  | write
  deriving DecidableEq, Repr

/-- A memory with the operations made so far, each with the memory it left behind. -/
structure Recorded (M : Type) where
  mem : M
  record : List (MemOp × M)

namespace Recorded

variable {M : Type}

/-- Nothing recorded yet. -/
def start (mem : M) : Recorded M := ⟨mem, []⟩

/-- The memory after an operation. -/
def push (s : Recorded M) (op : MemOp) (mem : M) : Recorded M := ⟨mem, s.record ++ [(op, mem)]⟩

/-- The operations on a recorded memory: those of the memory, each change recorded with its result.
-/
instance [PtMemoryOps M] : PtMemoryOps (Recorded M) where
  physMemRef s := physMemRef s.mem
  cr3 s := cr3 s.mem
  allocAvailablePages s := allocAvailablePages s.mem
  regions s := regions s.mem
  regionView s := regionView s.mem
  allocPage s := ((allocPage s.mem).1, s.push .allocPage (allocPage s.mem).2)
  deallocPage s r := s.push .deallocPage (deallocPage s.mem r)
  write s pbase idx region value := s.push .write (write s.mem pbase idx region value)
  read s := read s.mem

variable [PtMemoryOps M]

/-- The recording memory is seen through the views of the memory it records. -/
theorem inv_iff (s : Recorded M) : Inv s ↔ Inv s.mem :=
  ⟨fun h ↦ ⟨h.1, h.2, h.3, h.4⟩, fun h ↦ ⟨h.1, h.2, h.3, h.4⟩⟩

end Recorded

/-- Recording keeps the contracts. -/
instance {M : Type} [PhyAddrWidth] [PageTableMemory M] : PageTableMemory (Recorded M) where
  alloc_ensures s hinv havail :=
    have h := PageTableMemory.alloc_ensures s.mem (s.inv_iff.mp hinv) havail
    { available := h.available
      size_eq := h.size_eq
      base_le := h.base_le
      base_aligned := h.base_aligned
      fresh := h.fresh
      regions_eq := h.regions_eq
      view_new := h.view_new
      view_other := h.view_other
      cr3_eq := h.cr3_eq
      physMemRef_eq := h.physMemRef_eq
      inv := (Recorded.inv_iff _).mpr h.inv }
  dealloc_ensures s r hinv hr :=
    have h := PageTableMemory.dealloc_ensures s.mem r (s.inv_iff.mp hinv) hr
    { regions_eq := h.regions_eq
      view_other := h.view_other
      cr3_eq := h.cr3_eq
      physMemRef_eq := h.physMemRef_eq
      inv := (Recorded.inv_iff _).mpr h.inv }
  write_ensures s idx region value hal hinv hr hidx :=
    have h := PageTableMemory.write_ensures s.mem idx region value hal (s.inv_iff.mp hinv) hr hidx
    { view_eq := h.view_eq
      view_other := h.view_other
      regions_eq := h.regions_eq
      available := h.available
      cr3_eq := h.cr3_eq
      physMemRef_eq := h.physMemRef_eq }
  read_ensures s idx region hal hr hidx := PageTableMemory.read_ensures s.mem idx region hal hr hidx

/-! ## The tree a recording memory stores -/

section Tree

variable {M : Type} [PtMemoryOps M] [PhyAddrWidth]

private theorem LocalInvAt.start {mem : M} {pt : PTDir} {layer ptr : Nat}
    (h : LocalInvAt mem pt layer ptr) :
    LocalInvAt (Recorded.start mem) pt layer ptr where
  ptr_aligned := h.ptr_aligned
  mem_inv := (Recorded.inv_iff _).mpr h.mem_inv
  region_mem := h.region_mem
  region_base := h.region_base
  region_size := h.region_size
  view_length := h.view_length
  layer_in_range := h.layer_in_range
  entries_length := h.entries_length
  directories_have_flags := h.directories_have_flags
  ghost_pt_matches_structure := h.ghost_pt_matches_structure
  used_regions_refl := h.used_regions_refl
  used_regions_trans := h.used_regions_trans
  used_regions_pairwise_disjoint := h.used_regions_pairwise_disjoint
  region_notin_used_regions := h.region_notin_used_regions
  used_regions_subset := h.used_regions_subset
  hp_pat_is_zero := h.hp_pat_is_zero
  entry_mb0_bits_are_zero := h.entry_mb0_bits_are_zero

private theorem InvAt.start {mem : M} {pt : PTDir} {layer ptr : Nat} (h : InvAt mem pt layer ptr) :
    InvAt (Recorded.start mem) pt layer ptr := by
  induction h with
  | intro loc _ ih => exact .intro loc.start ih

private theorem PT.Inv.start {mem : M} {pt : PTDir} (h : PT.Inv mem pt) :
    PT.Inv (Recorded.start mem) pt :=
  ⟨h.1, h.2.start⟩

private theorem interpAtRec_start (mem : M) (n : Nat) (pt : PTDir) (layer base : Nat) :
    interpAtRec (Recorded.start mem) n pt layer base = interpAtRec mem n pt layer base := by
  induction n generalizing pt layer base with
  | zero => rfl
  | succ n ih =>
    have hview : ∀ i, viewAt (Recorded.start mem) pt layer i = viewAt mem pt layer i := fun _ ↦ rfl
    simp only [interpAtRec, ih, hview]

private theorem PT.interp_start (mem : M) (pt : PTDir) :
    PT.interp (Recorded.start mem) pt = PT.interp mem pt := interpAtRec_start mem _ pt 0 0

end Tree

/-! ## Recording changes no result -/

section Erase

/-- The result of a recorded run without the record. -/
def erase {R M : Type} (r : R × Recorded M) : R × M := (r.1, r.2.mem)

private theorem bind_erase {A R M : Type} (o : Option A) {f : A → Option (R × M)}
    {g : A → Option (R × Recorded M)} (h : ∀ a, f a = (g a).map erase) :
    o.bind f = (o.bind g).map erase := by
  cases o with
  | none => rfl
  | some a => exact h a

private theorem call_erase {A R M : Type} {o : Option (A × M)} {o' : Option (A × Recorded M)}
    (ho : o = o'.map erase) {f : A × M → Option (R × M)}
    {g : A × Recorded M → Option (R × Recorded M)} (h : ∀ a, f (erase a) = (g a).map erase) :
    o.bind f = (o'.bind g).map erase := by
  rw [ho]
  cases o' with
  | none => rfl
  | some a => exact h a

variable {M : Type} [PtMemoryOps M]

private theorem writeEntry_erase {R : Type} (s : Recorded M) (pt : PTDir) (ptr i : Nat)
    (value : BitVec 64) {f : M → Option (R × M)} {g : Recorded M → Option (R × Recorded M)}
    (h : ∀ s', f s'.mem = (g s').map erase) :
    (writeEntry s.mem pt ptr i value).bind f =
      ((writeEntry s pt ptr i value).bind g).map erase := by
  unfold writeEntry
  by_cases hi : i < 512
  · rw [if_pos hi, if_pos hi]
    exact h (write s ptr i pt.region value)
  · rw [if_neg hi, if_neg hi]
    rfl

private theorem insertEmptyDirectory_erase (s : Recorded M) (pt : PTDir) (layer ptr idx : Nat) :
    insertEmptyDirectory s.mem pt layer ptr idx =
      (insertEmptyDirectory s pt layer ptr idx).map erase := by
  unfold insertEmptyDirectory allocDirectory
  have havail : allocAvailablePages s = allocAvailablePages s.mem := rfl
  rw [havail]
  by_cases h : 0 < allocAvailablePages s.mem
  · rw [if_pos h, if_pos h]
    exact writeEntry_erase (allocPage s).2 pt ptr idx _ fun _ ↦ rfl
  · rw [if_neg h, if_neg h]
    rfl

private theorem isDirectoryEmptyFrom_erase (n : Nat) (s : Recorded M) (pt : PTDir)
    (layer ptr numEntries : Nat) {idx : Nat} (hn : n = numEntries - idx) :
    isDirectoryEmptyFrom s.mem pt layer ptr numEntries idx =
      isDirectoryEmptyFrom s pt layer ptr numEntries idx := by
  induction n generalizing idx with
  | zero =>
    have hnot : ¬idx < numEntries := by omega
    rw [isDirectoryEmptyFrom, dif_neg hnot, isDirectoryEmptyFrom, dif_neg hnot]
  | succ n ih =>
    have hlt : idx < numEntries := by omega
    have hentry : entryAt s.mem pt layer ptr idx = entryAt s pt layer ptr idx := rfl
    rw [isDirectoryEmptyFrom, dif_pos hlt, hentry, ih (by omega)]
    conv_rhs => rw [isDirectoryEmptyFrom, dif_pos hlt]

/-- Recording does not change what `is_directory_empty` finds. -/
theorem isDirectoryEmpty_erase (s : Recorded M) (pt : PTDir) (layer ptr : Nat) :
    isDirectoryEmpty s.mem pt layer ptr = isDirectoryEmpty s pt layer ptr := by
  unfold isDirectoryEmpty
  simp only [isDirectoryEmptyFrom_erase _ s pt layer ptr _ rfl]

variable [PhyAddrWidth]

/-- Recording does not change what `map_frame_aux` computes. -/
theorem mapFrameAux_erase (n : Nat) (s : Recorded M) (pt : PTDir) {layer : Nat}
    (ptr base vaddr : Nat) (pte : PageTableEntry) (hn : n = x86NumLayers - layer) :
    mapFrameAux s.mem pt layer ptr base vaddr pte =
      (mapFrameAux s pt layer ptr base vaddr pte).map erase := by
  induction n generalizing s pt layer ptr base with
  | zero =>
    have hnot : ¬layer < x86NumLayers := by omega
    rw [mapFrameAux, mapFrameAux, dif_neg hnot, dif_neg hnot]
    rfl
  | succ n ih =>
    have hlt : layer < x86NumLayers := by omega
    rw [mapFrameAux, mapFrameAux, dif_pos hlt, dif_pos hlt]
    apply bind_erase _ fun idx ↦ ?_
    have hentry : entryAt s.mem pt layer ptr idx = entryAt s pt layer ptr idx := rfl
    rw [hentry]
    apply bind_erase _ fun entry ↦ ?_
    apply bind_erase _ fun entryBase ↦ ?_
    apply bind_erase _ fun entrySize ↦ ?_
    by_cases hmap : entry.isMapping
    · rw [if_pos hmap, if_pos hmap]
      by_cases hdir : entry.isDir layer
      · rw [if_pos hdir, if_pos hdir]
        by_cases hsize : entrySize = pte.frame.size
        · rw [if_pos hsize, if_pos hsize]
          rfl
        · rw [if_neg hsize, if_neg hsize]
          apply bind_erase _ fun dirPt ↦ ?_
          apply call_erase (ih s dirPt _ _ (by omega)) fun res ↦ ?_
          rcases res with ⟨e | ⟨d, new⟩, s'⟩
          · rfl
          · rfl
      · rw [if_neg hdir, if_neg hdir]
        rfl
    · rw [if_neg hmap, if_neg hmap]
      by_cases hsize : entrySize = pte.frame.size
      · rw [if_pos hsize, if_pos hsize]
        exact writeEntry_erase s pt ptr idx _ fun _ ↦ rfl
      · rw [if_neg hsize, if_neg hsize]
        apply call_erase (insertEmptyDirectory_erase s pt layer ptr idx) fun res ↦ ?_
        apply bind_erase _ fun dirPt ↦ ?_
        apply call_erase (ih res.2 dirPt _ _ (by omega)) fun res' ↦ ?_
        rcases res' with ⟨e | ⟨d, new⟩, s'⟩
        · rfl
        · rfl

/-- Recording does not change what `map_frame` computes. -/
theorem mapFrame_erase (s : Recorded M) (pt : PTDir) (vaddr : Nat) (pte : PageTableEntry) :
    mapFrame s.mem pt vaddr pte =
      (mapFrame s pt vaddr pte).map fun r ↦ (r.1, r.2.1.mem, r.2.2) := by
  unfold mapFrame
  have hcr3 : cr3 s.mem = cr3 s := rfl
  rw [hcr3, mapFrameAux_erase _ s pt _ _ _ _ rfl]
  cases mapFrameAux s pt 0 (cr3 s).base 0 vaddr pte with
  | none => rfl
  | some res =>
    rcases res with ⟨e | ⟨d, new⟩, s'⟩
    · rfl
    · rfl

/-- Recording does not change what `unmap_aux` computes. -/
theorem unmapAux_erase (n : Nat) (s : Recorded M) (pt : PTDir) {layer : Nat}
    (ptr base vaddr : Nat) (hn : n = x86NumLayers - layer) :
    unmapAux s.mem pt layer ptr base vaddr = (unmapAux s pt layer ptr base vaddr).map erase := by
  induction n generalizing s pt layer ptr base with
  | zero =>
    have hnot : ¬layer < x86NumLayers := by omega
    rw [unmapAux, unmapAux, dif_neg hnot, dif_neg hnot]
    rfl
  | succ n ih =>
    have hlt : layer < x86NumLayers := by omega
    rw [unmapAux, unmapAux, dif_pos hlt, dif_pos hlt]
    apply bind_erase _ fun idx ↦ ?_
    have hentry : entryAt s.mem pt layer ptr idx = entryAt s pt layer ptr idx := rfl
    rw [hentry]
    apply bind_erase _ fun entry ↦ ?_
    apply bind_erase _ fun entryBase ↦ ?_
    apply bind_erase _ fun entrySize ↦ ?_
    by_cases hmap : entry.isMapping
    · rw [if_pos hmap, if_pos hmap]
      by_cases hdir : entry.isDir layer
      · rw [if_pos hdir, if_pos hdir]
        apply bind_erase _ fun dirPt ↦ ?_
        apply call_erase (ih s dirPt _ _ (by omega)) fun res ↦ ?_
        rcases res with ⟨e | ⟨d, removed⟩, s'⟩
        · rfl
        · dsimp only [erase]
          rw [isDirectoryEmpty_erase]
          apply bind_erase _ fun b ↦ ?_
          cases b with
          | true => exact writeEntry_erase s' pt ptr idx _ fun _ ↦ rfl
          | false => rfl
      · rw [if_neg hdir, if_neg hdir]
        apply bind_erase _ fun b ↦ ?_
        cases b with
        | true => exact writeEntry_erase s pt ptr idx _ fun _ ↦ rfl
        | false => rfl
    · rw [if_neg hmap, if_neg hmap]
      rfl

/-- Recording does not change what `unmap` computes. -/
theorem unmap_erase (s : Recorded M) (pt : PTDir) (vaddr : Nat) :
    unmap s.mem pt vaddr = (unmap s pt vaddr).map fun r ↦ (r.1, r.2.1.mem, r.2.2) := by
  unfold unmap
  have hcr3 : cr3 s.mem = cr3 s := rfl
  rw [hcr3, unmapAux_erase _ s pt _ _ _ rfl]
  cases unmapAux s pt 0 (cr3 s).base 0 vaddr with
  | none => rfl
  | some res =>
    rcases res with ⟨e | ⟨d, removed⟩, s'⟩
    · rfl
    · rfl

end Erase

/-! ## Recorded runs -/

section Runs

variable {M : Type} [PhyAddrWidth] [PageTableMemory M] {mem : M} {pt : PTDir} {vaddr : Nat}

/-- The runs of `map_frame` that are recorded, and what they are recordings of. -/
theorem mapFrame_run_recorded {pte : PageTableEntry} (hinv : PT.Inv mem pt)
    (hinterp : (PT.interp mem pt).Inv) (hpages : 3 ≤ allocAvailablePages mem)
    (hpte : AcceptedMapping pte) (ha : (PT.interp mem pt).AcceptedMapping vaddr pte)
    (hmax : vaddr < maxBase) :
    (∃ ptRes newRegions s', mapFrame (Recorded.start mem) pt vaddr pte = some (.ok (), s', ptRes) ∧
        mapFrame mem pt vaddr pte = some (.ok (), s'.mem, ptRes) ∧
        MapRun vaddr pte (Recorded.start mem) pt 0 (cr3 (Recorded.start mem)).base 0
          (.ok (ptRes, newRegions)) s') ∨
      (mapFrame (Recorded.start mem) pt vaddr pte = some (.error (), Recorded.start mem, pt) ∧
        mapFrame mem pt vaddr pte = some (.error (), mem, pt)) := by
  have herase := mapFrame_erase (Recorded.start mem) pt vaddr pte
  rw [← PT.interp_start] at hinterp ha
  rcases mapFrame_run hinv.start hinterp hpages hpte ha hmax with
    ⟨ptRes, newRegions, s', hcall, hrun⟩ | ⟨hcall, _⟩
  · rw [hcall] at herase
    exact .inl ⟨ptRes, newRegions, s', hcall, herase, hrun⟩
  · rw [hcall] at herase
    exact .inr ⟨hcall, herase⟩

/-- The runs of `unmap` that are recorded, and what they are recordings of. -/
theorem unmap_run_recorded (hinv : PT.Inv mem pt) (hinterp : (PT.interp mem pt).Inv)
    (ha : (PT.interp mem pt).AcceptedUnmap vaddr) (hmax : vaddr < maxBase) :
    (∃ ptRes removedRegions s', unmap (Recorded.start mem) pt vaddr = some (.ok (), s', ptRes) ∧
        unmap mem pt vaddr = some (.ok (), s'.mem, ptRes) ∧
        UnmapRun vaddr (Recorded.start mem) pt 0 (cr3 (Recorded.start mem)).base 0
          (.ok (ptRes, removedRegions)) s') ∨
      (unmap (Recorded.start mem) pt vaddr = some (.error (), Recorded.start mem, pt) ∧
        unmap mem pt vaddr = some (.error (), mem, pt)) := by
  have herase := unmap_erase (Recorded.start mem) pt vaddr
  rw [← PT.interp_start] at hinterp ha
  rcases unmap_run hinv.start hinterp ha hmax with
    ⟨ptRes, removedRegions, s', hcall, hrun⟩ | ⟨hcall, _⟩
  · rw [hcall] at herase
    exact .inl ⟨ptRes, removedRegions, s', hcall, herase, hrun⟩
  · rw [hcall] at herase
    exact .inr ⟨hcall, herase⟩

end Runs

end NrKernel.PageTable
