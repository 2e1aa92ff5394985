import NrKernel.PageTable.DirectoryRefinement
import NrKernel.PageTable.Refinement

/-!
# Resolving addresses

`resolve` follows the one path of an address down the tables, while its specification asks
for a mapping anywhere in the hardware view that covers the address. The executable function
(`impl_u/l2_impl.rs`) resolves in the directory tree the memory stores, and so answers what
the hardware view holds at the address, also in the middle of large pages.
-/

namespace NrKernel.PageTable

open Lib PtMemory

/-! ## Resolving in memory -/

section Exec

variable {M : Type} [PtMemoryOps M] [PhyAddrWidth]

/-- `resolve_aux` (`impl_u/l2_impl.rs:851–920`). -/
def resolveAux (mem : M) (pt : PTDir) (layer ptr base vaddr : Nat) :
    Option (Except Unit (Nat × PageTableEntry)) :=
  -- beyond the last layer the lookup of the entry size fails
  if _h : layer < x86NumLayers then do
    let idx ← archIndexForVaddr layer base vaddr
    let entry ← entryAt mem pt layer ptr idx
    if entry.isMapping then
      let entryBase ← archEntryBase layer base idx
      if entry.isDir layer then
        let dirAddr := entry.address.toNat
        let dirPt ← pt.entry idx
        resolveAux mem dirPt (layer + 1) dirAddr entryBase vaddr
      else
        let size ← archEntrySize layer
        let pte : PageTableEntry := {
          frame := ⟨entry.address.toNat, size⟩
          flags := entry.flags }
        return .ok (entryBase, pte)
    else
      return .error ()
  else none
termination_by x86NumLayers - layer

/-- `resolve` (`impl_u/l2_impl.rs:922–939`). -/
def resolve (mem : M) (pt : PTDir) (vaddr : Nat) : Option (Except Unit (Nat × PageTableEntry)) :=
  resolveAux mem pt 0 (cr3 mem).base 0 vaddr

end Exec

section Calls

variable {M : Type} [PhyAddrWidth] [PageTableMemory M]

/-- On a memory that stores a tree, `resolve_aux` resolves in that tree. -/
theorem InvAt.resolveAux_eq {mem : M} {pt : PTDir} {layer ptr base vaddr : Nat}
    (h : InvAt mem pt layer ptr) (hinterp : (interpAt mem pt layer base).Inv)
    (hle : base ≤ vaddr) (hlt : vaddr < x86Arch.upperVaddr layer base) (hmax : vaddr < maxBase) :
    resolveAux mem pt layer ptr base vaddr = some ((interpAt mem pt layer base).resolve vaddr) := by
  induction h generalizing base with
  | @intro pt layer ptr loc sub ih =>
    have hlayer := loc.layer_in_range
    have hle3 : layer ≤ 3 := Nat.le_of_lt_succ hlayer
    have hidx : x86Arch.indexForVaddr layer base vaddr < x86NumEntries := by
      have hlt' := Arch.indexForVaddr_lt (x86Arch_entrySize_pos hlayer) hle hlt
      rwa [x86Arch_numEntries hlayer] at hlt'
    have hbetween := Arch.between_entryBase (x86Arch_entrySize_pos hlayer) hle
    have hmb0 := loc.entry_mb0_bits_are_zero _ hidx
    have hpat := loc.hp_pat_is_zero _ hidx
    have hindex : (interpAt mem pt layer base).indexForVaddr vaddr =
        x86Arch.indexForVaddr layer base vaddr := interpAt_indexForVaddr mem pt layer base vaddr
    rw [resolveAux, dif_pos hlayer, archIndexForVaddr_eq hlayer hle, Option.bind_eq_bind,
      Option.bind_some, loc.entryAt_eq hidx, Option.bind_eq_bind, Option.bind_some]
    by_cases hmap : (entryAtSpec mem pt layer (x86Arch.indexForVaddr layer base vaddr)).isMapping
    · rw [if_pos hmap, archEntryBase_eq hlayer (Nat.lt_of_le_of_lt hle hmax) hidx,
        Option.bind_eq_bind, Option.bind_some]
      cases hdir : (entryAtSpec mem pt layer (x86Arch.indexForVaddr layer base vaddr)).isDir
          layer with
      | true =>
        obtain ⟨e, hview, haddr⟩ := PageDirectoryEntry.view_of_dir hle3 hmb0 hmap hdir
        obtain ⟨d, hd⟩ := loc.exists_entry hidx hview
        have hentry := loc.interpAt_directory hidx hview hd base
        have hupper := hinterp.sub_upperVaddr hentry
        rw [Directory.upperVaddr, interpAt_arch, interpAt_layer, interpAt_baseVaddr,
          interpAt_entryBase] at hupper
        rw [if_pos rfl, hd, Option.bind_some, ← haddr,
          ih _ e d hidx hview hd (hinterp.sub hentry) hbetween.1
            (by rw [hupper]; exact hbetween.2),
          hinterp.resolve_directory (by rw [hindex]; exact hentry)]
      | false =>
        obtain ⟨p, hview, haddr, hflags⟩ :=
          PageDirectoryEntry.view_of_page hle3 hmb0 hpat hmap hdir
        have hentry := loc.interpAt_page hidx hview base
        rw [if_neg Bool.false_ne_true, archEntrySize_eq hlayer, Option.bind_some,
          hinterp.resolve_page (by rw [hindex]; exact hentry), hindex, interpAt_entryBase, haddr,
          hflags]
        rfl
    · rw [if_neg hmap]
      have hview := PageDirectoryEntry.view_of_not_mapping (Bool.eq_false_of_not_eq_true hmap)
      have hentry := loc.interpAt_empty hidx hview base
      rw [hinterp.resolve_empty (by rw [hindex]; exact hentry)]
      rfl

/-- `resolve` of a mappable address resolves in the tree the memory stores. -/
theorem PT.Inv.resolve_eq {mem : M} {pt : PTDir} {vaddr : Nat} (hinv : PT.Inv mem pt)
    (hinterp : (PT.interp mem pt).Inv) (hmax : vaddr < maxBase) :
    resolve mem pt vaddr = some ((PT.interp mem pt).resolve vaddr) := by
  have hupper : x86Arch.upperVaddr 0 0 = maxBase := by decide
  apply hinv.2.resolveAux_eq hinterp (Nat.zero_le _) ?_ hmax
  rw [hupper]
  exact hmax

end Calls

/-! ## Main result -/

/-- `resolve` agrees with the MMU: it returns the one mapping of the hardware view that
covers the address, and fails exactly where no mapping does. -/
theorem resolve_iff_interpPtMem {M : Type} [PhyAddrWidth] [PageTableMemory M] (mem : M)
    (pt : PTDir) (vaddr : Nat) (hinv : PT.Inv mem pt) (hinterp : (PT.interp mem pt).Inv)
    (hmax : vaddr < maxBase) :
    ∃ result, resolve mem pt vaddr = some result ∧
      (∀ base pte, result = .ok (base, pte) ↔
        interpPtMem mem base = some pte ∧ between vaddr base (base + pte.frame.size)) ∧
      (∀ base pte base' pte',
        interpPtMem mem base = some pte → between vaddr base (base + pte.frame.size) →
        interpPtMem mem base' = some pte' → between vaddr base' (base' + pte'.frame.size) →
        base = base' ∧ pte = pte') ∧
      (result = .error () ↔
        ∀ base pte, interpPtMem mem base = some pte →
          ¬between vaddr base (base + pte.frame.size)) := by
  have hle : (PT.interp mem pt).baseVaddr ≤ vaddr := by
    rw [PT.interp, interpAt_baseVaddr]
    exact Nat.zero_le _
  have hcov : ∀ r, (PT.interp mem pt).interp.Covers vaddr r ↔
      interpPtMem mem r.1 = some r.2 ∧ between vaddr r.1 (r.1 + r.2.frame.size) := by
    intro r
    rw [PageTableContents.Covers, Directory.interp_map, hinv.interpPtMem_eq hinterp]
  refine ⟨_, hinv.resolve_eq hinterp hmax, ?_, ?_, ?_⟩
  · intro base pte
    rw [hinterp.resolve_eq_ok_iff hle, hcov]
  · intro base pte base' pte' hmap hin hmap' hin'
    apply Prod.mk.inj
    apply hinterp.covers_unique
    · exact (hcov (base, pte)).mpr ⟨hmap, hin⟩
    · exact (hcov (base', pte')).mpr ⟨hmap', hin'⟩
  · rw [hinterp.resolve_eq_error_iff hle]
    constructor
    · exact fun hno base pte hmap hin ↦ hno (base, pte) ((hcov _).mpr ⟨hmap, hin⟩)
    · exact fun hno r hr ↦ hno r.1 r.2 ((hcov r).mp hr).1 ((hcov r).mp hr).2

attribute [local instance] widePhyAddr in
/-- An address within a mapped page resolves to it. -/
theorem resolve_iff_interpPtMem_mapped : ∃ (mem : BumpMemory) (pt : PTDir),
    interpPtMem mem 0x3000 = some smallPage ∧
    ∃ result, resolve mem pt 0x3abc = some result ∧
      (∀ base pte, result = .ok (base, pte) ↔
        interpPtMem mem base = some pte ∧ between 0x3abc base (base + pte.frame.size)) ∧
      (∀ base pte base' pte',
        interpPtMem mem base = some pte → between 0x3abc base (base + pte.frame.size) →
        interpPtMem mem base' = some pte' → between 0x3abc base' (base' + pte'.frame.size) →
        base = base' ∧ pte = pte') ∧
      (result = .error () ↔
        ∀ base pte, interpPtMem mem base = some pte →
          ¬between 0x3abc base (base + pte.frame.size)) := by
  obtain ⟨mem, pt, hinv, hinterp, hmap⟩ := exists_mapped
  exact ⟨mem, pt, by rw [hmap, PMap.insert_self],
    resolve_iff_interpPtMem mem pt 0x3abc hinv hinterp (by decide)⟩

end NrKernel.PageTable
