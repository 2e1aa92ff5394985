import NrKernel.PageTable.Tree

/-!
# The hardware walk computes the tree's mappings

The four nested lookups of the MMU are one recursion over the layers. On a memory that
stores a well-formed tree the recursion follows the tree, so the map the MMU computes is
the interpretation of the tree (`lemma_page_table_walk_interp`,
`impl_u/l2_refinement.rs:16–40`).
-/

namespace NrKernel.PageTable

open Lib Lib.WordBits PtMemory

/-! ## The walk as a recursion -/

/-- The index of an address in a table of the given layer. -/
def layerIndex (layer addr : Nat) : Nat := addr / x86Arch.entrySize layer % x86NumEntries

private theorem bits_eq_layerIndex (addr : Nat) :
    l0Bits (BitVec.ofNat 64 addr) = layerIndex 0 addr ∧
    l1Bits (BitVec.ofNat 64 addr) = layerIndex 1 addr ∧
    l2Bits (BitVec.ofNat 64 addr) = layerIndex 2 addr ∧
    l3Bits (BitVec.ofNat 64 addr) = layerIndex 3 addr :=
  ⟨toNat_field addr (by decide) (by decide), toNat_field addr (by decide) (by decide),
    toNat_field addr (by decide) (by decide), toNat_field addr (by decide) (by decide)⟩

/-- In a table whose range is aligned, the index relative to the table's base is the index
the MMU extracts from the address. -/
theorem layerIndex_eq {layer base addr : Nat} (hlayer : layer < x86NumLayers)
    (hbase : aligned base (x86Arch.entrySize layer * x86Arch.numEntries layer))
    (hle : base ≤ addr) (hlt : addr < x86Arch.upperVaddr layer base) :
    layerIndex layer addr = x86Arch.indexForVaddr layer base addr := by
  have hes := x86Arch_entrySize_pos hlayer
  have hidx := Arch.indexForVaddr_lt hes hle hlt
  rw [x86Arch_numEntries hlayer] at hbase hidx
  obtain ⟨k, hk⟩ := (aligned_iff_dvd _ _).mp hbase
  have haddr : addr = (addr - base) + x86Arch.entrySize layer * (512 * k) := by
    rw [← Nat.mul_assoc, ← hk]
    omega
  have hdiv : addr / x86Arch.entrySize layer =
      x86Arch.indexForVaddr layer base addr + 512 * k := by
    conv_lhs => rw [haddr]
    rw [Nat.add_mul_div_left _ _ hes]
    rfl
  unfold layerIndex
  rw [hdiv, x86NumEntries, Nat.add_mul_mod_self_left, Nat.mod_eq_of_lt hidx]

variable {M : Type} [PtMemoryOps M] [PhyAddrWidth]

/-- The walk from a table of the given layer on, with the rights combined so far. -/
def walkRec (ptMem : M) (addr : Nat) :
    Nat → (layer dirAddr : Nat) → (rw us xd : Bool) → Option PageTableEntry
  | 0, _, _, _, _, _ => none
  | n + 1, layer, dirAddr, rw, us, xd =>
    match readEntry ptMem dirAddr layer (layerIndex layer addr) with
    | .directory d =>
      walkRec ptMem addr n (layer + 1) d.addr (rw && d.flagRW) (us && d.flagUS) (xd || d.flagXD)
    | .page p =>
      if aligned addr (x86Arch.entrySize layer) then
        some {
          frame := ⟨p.addr, x86Arch.entrySize layer⟩
          flags := {
            isWritable := rw && p.flagRW
            isSupervisor := !(us && p.flagUS)
            disableExecute := xd || p.flagXD } }
      else none
    | .empty => none

/-- The MMU's walk is the recursion from the root table with all rights granted. -/
theorem ptWalk_eq_walkRec (ptMem : M) {addr : Nat} (haddr : addr < 2 ^ 64) :
    ptWalk ptMem (BitVec.ofNat 64 addr) =
      walkRec ptMem addr 4 0 (cr3 ptMem).base true true false := by
  obtain ⟨h0, h1, h2, h3⟩ := bits_eq_layerIndex addr
  have htoNat : (BitVec.ofNat 64 addr).toNat = addr := by
    rw [BitVec.toNat_ofNat, Nat.mod_eq_of_lt haddr]
  unfold ptWalk
  rw [h0, h1, h2, h3, htoNat, walkRec]
  have hroot : (readEntry ptMem (cr3 ptMem).base 0 (layerIndex 0 addr)).isPage = false :=
    PageDirectoryEntry.view_zero_isPage _
  cases he0 : readEntry ptMem (cr3 ptMem).base 0 (layerIndex 0 addr) with
  | empty => rfl
  | page p =>
    rw [he0] at hroot
    cases hroot
  | directory d0 =>
    dsimp only
    rw [walkRec]
    cases readEntry ptMem d0.addr 1 (layerIndex 1 addr) with
    | empty => rfl
    | page p => simp [Bool.not_and, show l1EntrySize = x86Arch.entrySize 1 from rfl]
    | directory d1 =>
      dsimp only
      rw [walkRec]
      cases readEntry ptMem d1.addr 2 (layerIndex 2 addr) with
      | empty => rfl
      | page p =>
        simp [Bool.not_and, Bool.or_assoc, show l2EntrySize = x86Arch.entrySize 2 from rfl]
      | directory d2 =>
        dsimp only
        rw [walkRec]
        cases readEntry ptMem d2.addr 3 (layerIndex 3 addr) with
        | empty => rfl
        | page p =>
          simp [Bool.not_and, Bool.or_assoc, show l3EntrySize = x86Arch.entrySize 3 from rfl]
        | directory d3 => rfl

/-! ## The walk follows the tree -/

/-- A table is the page its pointer refers to. -/
theorem LocalInvAt.region_eq {mem : M} {pt : PTDir} {layer ptr : Nat}
    (h : LocalInvAt mem pt layer ptr) : pt.region = ⟨ptr, pageSize⟩ := by
  rw [← h.region_base, ← h.region_size]

/-- Reading through the MMU sees the table's own words. -/
theorem LocalInvAt.readEntry_eq {mem : M} {pt : PTDir} {layer ptr : Nat}
    (h : LocalInvAt mem pt layer ptr) (i : Nat) :
    readEntry mem ptr layer i = viewAt mem pt layer i := by
  unfold readEntry
  rw [← h.region_eq]
  rfl

/-- From every table of the tree on, the walk of an address in the table's range arrives at
what the tree maps there. -/
theorem InvAt.walkRec_eq {mem : M} {pt : PTDir} {layer ptr base addr : Nat}
    (h : InvAt mem pt layer ptr) (hinterp : (interpAt mem pt layer base).Inv)
    (hle : base ≤ addr) (hlt : addr < x86Arch.upperVaddr layer base) :
    walkRec mem addr (x86NumLayers - layer) layer ptr true true false =
      (interpAt mem pt layer base).interpMap addr := by
  induction h generalizing base with
  | @intro pt layer ptr loc sub ih =>
    have hlayer := loc.layer_in_range
    have hwf := hinterp.loc.toWellFormed
    have hbase := hwf.base_aligned
    rw [Directory.entrySize, Directory.numEntries, interpAt_layer, interpAt_baseVaddr,
      interpAt_arch] at hbase
    have hidx : x86Arch.indexForVaddr layer base addr < x86NumEntries := by
      have := Arch.indexForVaddr_lt (x86Arch_entrySize_pos hlayer) hle hlt
      rwa [x86Arch_numEntries hlayer] at this
    have hbetween := Arch.between_entryBase (x86Arch_entrySize_pos hlayer) hle
    have hle' : (interpAt mem pt layer base).baseVaddr ≤ addr := by
      rw [interpAt_baseVaddr]
      exact hle
    have hlook := hinterp.interpMap_apply hle'
    rw [Directory.indexForVaddr, Directory.entryBase, interpAt_layer, interpAt_baseVaddr,
      interpAt_arch] at hlook
    obtain ⟨n, hn⟩ : ∃ n, x86NumLayers - layer = n + 1 := ⟨x86NumLayers - layer - 1, by omega⟩
    rw [hlook, hn, walkRec, layerIndex_eq hlayer hbase hle hlt, loc.readEntry_eq]
    cases hv : viewAt mem pt layer (x86Arch.indexForVaddr layer base addr) with
    | empty => rw [loc.interpAt_empty hidx hv, NodeEntry.interpMap, PMap.empty_apply]
    | page p =>
      rw [loc.interpAt_page hidx hv, NodeEntry.interpMap]
      have hbase' := hwf.base_aligned_entrySize
      rw [Directory.entrySize, interpAt_layer, interpAt_baseVaddr, interpAt_arch] at hbase'
      by_cases hal : aligned addr (x86Arch.entrySize layer)
      · have heq := Arch.entryBase_index_of_aligned hle hbase' hal
        simp only [if_pos hal, heq, PMap.insert_self, Bool.true_and, Bool.false_or]
      · -- inside the page, past its base, nothing starts
        have hne : addr ≠ x86Arch.entryBase layer base (x86Arch.indexForVaddr layer base addr) := by
          intro heq
          apply hal
          rw [heq]
          exact Arch.aligned_entryBase _ hbase' (Nat.mod_self _)
        simp only [if_neg hal, PMap.insert_of_ne _ _ hne, PMap.empty_apply]
    | directory e =>
      obtain ⟨d, hd⟩ := loc.exists_entry hidx hv
      obtain ⟨hrw, hus, hxd⟩ := loc.directories_have_flags _ hidx e hv
      have hentry := loc.interpAt_directory hidx hv hd base
      have hupper := hinterp.sub_upperVaddr hentry
      rw [Directory.upperVaddr, Directory.entryBase] at hupper
      simp only [interpAt_arch, interpAt_layer, interpAt_baseVaddr] at hupper
      have hrec := ih _ e d hidx hv hd (hinterp.sub hentry) hbetween.1
        (by rw [hupper]; exact hbetween.2)
      have hnext : n = x86NumLayers - (layer + 1) := by omega
      rw [hentry, NodeEntry.interpMap]
      simp only [hrw, hus, hxd, Bool.and_self, Bool.or_self, hnext]
      exact hrec

/-- The map the MMU computes from raw words is the map of the tree. -/
theorem PT.Inv.interpPtMem_eq {mem : M} {pt : PTDir} (hinv : PT.Inv mem pt)
    (hinterp : (PT.interp mem pt).Inv) : interpPtMem mem = (PT.interp mem pt).interpMap := by
  have hupper : x86Arch.upperVaddr 0 0 = maxBase := by decide
  have hwalk : ∀ addr, addr < maxBase →
      ptWalk mem (BitVec.ofNat 64 addr) = (PT.interp mem pt).interpMap addr := by
    intro addr haddr
    rw [ptWalk_eq_walkRec mem (by rw [maxBase_eq] at haddr; omega)]
    exact hinv.2.walkRec_eq hinterp (Nat.zero_le _) (by rw [hupper]; exact haddr)
  ext addr pte
  rw [interpPtMem_eq_some, validPtWalk]
  constructor
  · rintro ⟨haddr, hvalid⟩
    rwa [hwalk addr haddr] at hvalid
  · intro hp
    have hb := hinterp.interpMap_bounds hp
    rw [Directory.upperVaddr, PT.interp, interpAt_arch, interpAt_layer, interpAt_baseVaddr,
      hupper] at hb
    have haddr : addr < maxBase := by omega
    exact ⟨haddr, (hwalk addr haddr).trans hp⟩

end NrKernel.PageTable
