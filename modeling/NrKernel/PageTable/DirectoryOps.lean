import NrKernel.PageTable.Directory

/-!
# Mapping and unmapping in directory trees

The recursive operations of `impl_u/l1.rs` for any architecture. Both keep the directory
invariant and act on the interpretation as insertion and removal of one key; a refused
request leaves the directory as it was.
-/

namespace NrKernel.PageTable

open Lib

namespace Directory

/-- `accepted_mapping` (`impl_u/l1.rs:810–817`). -/
structure AcceptedMapping (d : Directory) (base : Nat) (pte : PageTableEntry) : Prop where
  vaddr_aligned : aligned base pte.frame.size
  frame_aligned : aligned pte.frame.base pte.frame.size
  in_bounds : d.baseVaddr ≤ base ∧ base + pte.frame.size ≤ d.upperVaddr
  valid_size : d.arch.containsEntrySizeAtIndexAtleast pte.frame.size d.layer

/-- `accepted_unmap` (`impl_u/l1.rs:1414–1418`). -/
def AcceptedUnmap (d : Directory) (base : Nat) : Prop := d.interp.AcceptedUnmap base

/-- `new_empty_dir` (`impl_u/l1.rs:844–857`). -/
def newEmptyDir (d : Directory) (entry : Nat) : Directory where
  entries := List.replicate (d.arch.numEntries (d.layer + 1)) .empty
  layer := d.layer + 1
  baseVaddr := d.entryBase entry
  arch := d.arch
  flags := permissiveFlags

/-- The recursion of `map_frame` over the layers that are left. -/
def mapFrameRec : Nat → Directory → Nat → PageTableEntry → Except Directory Directory
  | 0, d, _, _ => .error d
  | n + 1, d, base, pte =>
    let entry := d.indexForVaddr base
    match d.entry entry with
    | .page _ => .error d
    | .directory d' =>
      if d.entrySize = pte.frame.size then
        .error d
      else
        match mapFrameRec n d' base pte with
        | .ok d' => .ok (d.update entry (.directory d'))
        | .error d' => .error (d.update entry (.directory d'))
    | .empty =>
      if d.entrySize = pte.frame.size then
        .ok (d.update entry (.page pte))
      else
        match mapFrameRec n (d.newEmptyDir entry) base pte with
        | .ok d' => .ok (d.update entry (.directory d'))
        -- an accepted mapping always fits into an empty directory
        | .error _ => .error d

/-- `map_frame` (`impl_u/l1.rs:880–917`), for directories with the invariant and accepted
requests; the recursion decreases the number of layers below the directory. -/
def mapFrame (d : Directory) (base : Nat) (pte : PageTableEntry) : Except Directory Directory :=
  mapFrameRec (d.arch.layers.length - d.layer) d base pte

/-- The recursion of `unmap` over the layers that are left. -/
def unmapRec : Nat → Directory → Nat → Except Directory Directory
  | 0, d, _ => .error d
  | n + 1, d, base =>
    let entry := d.indexForVaddr base
    match d.entry entry with
    | .page _ =>
      if aligned base d.entrySize then .ok (d.update entry .empty) else .error d
    | .directory d' =>
      match unmapRec n d' base with
      | .ok newD =>
        .ok (d.update entry (if newD.Empty then .empty else .directory newD))
      | .error newD => .error (d.update entry (.directory newD))
    | .empty => .error d

/-- `unmap` (`impl_u/l1.rs:1420–1456`). -/
def unmap (d : Directory) (base : Nat) : Except Directory Directory :=
  unmapRec (d.arch.layers.length - d.layer) d base

/-! ## Unfolding -/

section Unfolding

variable {d : Directory} {base : Nat} {pte : PageTableEntry}

private theorem Inv.layers_left (h : d.Inv) :
    d.arch.layers.length - d.layer = d.arch.layers.length - (d.layer + 1) + 1 := by
  have hlt := h.loc.layer_lt
  omega

/-- Mapping over a page is refused. -/
theorem Inv.mapFrame_page (h : d.Inv) {q : PageTableEntry}
    (he : d.entry (d.indexForVaddr base) = .page q) : d.mapFrame base pte = .error d := by
  rw [mapFrame, h.layers_left, mapFrameRec, he]

/-- Mapping below a directory goes on in it, unless the page has the entry's size. -/
theorem Inv.mapFrame_directory (h : d.Inv) {d' : Directory}
    (he : d.entry (d.indexForVaddr base) = .directory d') :
    d.mapFrame base pte =
      if d.entrySize = pte.frame.size then .error d
      else
        match d'.mapFrame base pte with
        | .ok d' => .ok (d.update (d.indexForVaddr base) (.directory d'))
        | .error d' => .error (d.update (d.indexForVaddr base) (.directory d')) := by
  have hsub : d'.mapFrame base pte =
      mapFrameRec (d.arch.layers.length - (d.layer + 1)) d' base pte := by
    rw [mapFrame, h.loc.directories_match_arch _ d' he,
      (h.loc.directories_are_in_next_layer _ d' he).1]
  rw [mapFrame, h.layers_left, mapFrameRec, he, hsub]

/-- Mapping at an empty entry puts the page there, or goes on in a new directory. -/
theorem Inv.mapFrame_empty (h : d.Inv) (he : d.entry (d.indexForVaddr base) = .empty) :
    d.mapFrame base pte =
      if d.entrySize = pte.frame.size then .ok (d.update (d.indexForVaddr base) (.page pte))
      else
        match (d.newEmptyDir (d.indexForVaddr base)).mapFrame base pte with
        | .ok d' => .ok (d.update (d.indexForVaddr base) (.directory d'))
        | .error _ => .error d := by
  have hsub : (d.newEmptyDir (d.indexForVaddr base)).mapFrame base pte =
      mapFrameRec (d.arch.layers.length - (d.layer + 1)) (d.newEmptyDir (d.indexForVaddr base))
        base pte := rfl
  rw [mapFrame, h.layers_left, mapFrameRec, he, hsub]

/-- Unmapping a page clears its entry, at its base only. -/
theorem Inv.unmap_page (h : d.Inv) {q : PageTableEntry}
    (he : d.entry (d.indexForVaddr base) = .page q) :
    d.unmap base =
      if aligned base d.entrySize then .ok (d.update (d.indexForVaddr base) .empty)
      else .error d := by
  rw [unmap, h.layers_left, unmapRec, he]

/-- Unmapping below a directory goes on in it, and drops it once it is empty. -/
theorem Inv.unmap_directory (h : d.Inv) {d' : Directory}
    (he : d.entry (d.indexForVaddr base) = .directory d') :
    d.unmap base =
      match d'.unmap base with
      | .ok newD =>
        .ok (d.update (d.indexForVaddr base) (if newD.Empty then .empty else .directory newD))
      | .error newD => .error (d.update (d.indexForVaddr base) (.directory newD)) := by
  have hsub : d'.unmap base = unmapRec (d.arch.layers.length - (d.layer + 1)) d' base := by
    rw [unmap, h.loc.directories_match_arch _ d' he,
      (h.loc.directories_are_in_next_layer _ d' he).1]
  rw [unmap, h.layers_left, unmapRec, he, hsub]

/-- Unmapping at an empty entry is refused. -/
theorem Inv.unmap_empty (h : d.Inv) (he : d.entry (d.indexForVaddr base) = .empty) :
    d.unmap base = .error d := by
  rw [unmap, h.layers_left, unmapRec, he]

end Unfolding

/-! ## Updating one entry -/

/-- An update keeps the layer. -/
@[simp] theorem update_layer (d : Directory) (n : Nat) (e : NodeEntry) :
    (d.update n e).layer = d.layer := rfl

/-- An update keeps the base. -/
@[simp] theorem update_baseVaddr (d : Directory) (n : Nat) (e : NodeEntry) :
    (d.update n e).baseVaddr = d.baseVaddr := rfl

/-- An update keeps the architecture. -/
@[simp] theorem update_arch (d : Directory) (n : Nat) (e : NodeEntry) :
    (d.update n e).arch = d.arch := rfl

/-- An update keeps the entry size. -/
@[simp] theorem update_entrySize (d : Directory) (n : Nat) (e : NodeEntry) :
    (d.update n e).entrySize = d.entrySize := rfl

/-- An update keeps where entries start. -/
@[simp] theorem update_entryBase (d : Directory) (n : Nat) (e : NodeEntry) :
    (d.update n e).entryBase = d.entryBase := rfl

/-- An update keeps the index of an address. -/
@[simp] theorem update_indexForVaddr (d : Directory) (n : Nat) (e : NodeEntry) :
    (d.update n e).indexForVaddr = d.indexForVaddr := rfl

/-- The last of two updates of one entry counts. -/
theorem update_update (d : Directory) (n : Nat) (e e' : NodeEntry) :
    (d.update n e).update n e' = d.update n e' := by
  unfold update
  rw [List.set_set]

private theorem WellFormed.update {d : Directory} (h : d.WellFormed) (n : Nat) (e : NodeEntry) :
    (d.update n e).WellFormed where
  arch_inv := h.arch_inv
  layer_lt := h.layer_lt
  base_aligned := h.base_aligned
  entries_length := by
    rw [Directory.update, List.length_set]
    exact h.entries_length
  flags_eq := h.flags_eq

/-- Replacing an entry by one that meets the invariant keeps the invariant. -/
theorem Inv.update {d : Directory} (h : d.Inv) {n : Nat} (hn : n < d.numEntries) {e : NodeEntry}
    (he : d.EntryInv n e) : (d.update n e).Inv := by
  apply (h.loc.toWellFormed.update n e).inv_of_entryInv
  intro i
  rw [entry_update d e (by rw [h.loc.entries_length]; exact hn)]
  by_cases hi : i = n
  · rw [if_pos hi, hi]
    exact he
  · rw [if_neg hi]
    exact h.entryInv i

/-- The interpretation after an update of the entry at index `n`. -/
theorem Inv.interpMap_update {d : Directory} (h : d.Inv) {n : Nat} {e : NodeEntry}
    (hn : n < d.numEntries) (he : d.EntryInv n e) (va : Nat) :
    (d.update n e).interpMap va =
      if d.baseVaddr ≤ va ∧ d.indexForVaddr va = n then
        NodeEntry.interpMap (d.entryBase n) e va
      else d.interpMap va := by
  have hup := h.update hn he
  by_cases hle : d.baseVaddr ≤ va
  · have hlook := hup.interpMap_apply hle
    rw [update_entryBase, update_indexForVaddr,
      entry_update d e (by rw [h.loc.entries_length]; exact hn)] at hlook
    rw [hlook]
    by_cases hidx : d.indexForVaddr va = n
    · rw [if_pos hidx, if_pos ⟨hle, hidx⟩, hidx]
    · rw [if_neg hidx, if_neg (fun hc ↦ hidx hc.2), h.interpMap_apply hle]
  · rw [if_neg (fun hc ↦ hle hc.1)]
    have hnone : ∀ d : Directory, d.Inv → ¬d.baseVaddr ≤ va → d.interpMap va = none := by
      intro d hd hlow
      rw [Option.eq_none_iff_forall_ne_some]
      intro p hp
      exact hlow (hd.interpMap_bounds hp).2.1
    rw [hnone _ hup hle, hnone _ h hle]

-- An update that inserts into the mappings of one entry inserts into the directory.
private theorem Inv.interpMap_update_insert {d : Directory} (h : d.Inv) {base : Nat}
    {e : NodeEntry} {pte : PageTableEntry} (hle : d.baseVaddr ≤ base)
    (hn : d.indexForVaddr base < d.numEntries) (he : d.EntryInv (d.indexForVaddr base) e)
    (hins : NodeEntry.interpMap (d.entryBase (d.indexForVaddr base)) e =
      (NodeEntry.interpMap (d.entryBase (d.indexForVaddr base))
        (d.entry (d.indexForVaddr base))).insert base pte) :
    (d.update (d.indexForVaddr base) e).interpMap = d.interpMap.insert base pte := by
  funext va
  rw [h.interpMap_update hn he]
  by_cases hcov : d.baseVaddr ≤ va ∧ d.indexForVaddr va = d.indexForVaddr base
  · rw [if_pos hcov, hins, PMap.insert_apply, PMap.insert_apply, h.interpMap_apply hcov.1, hcov.2]
  · rw [if_neg hcov, PMap.insert_of_ne]
    rintro rfl
    exact hcov ⟨hle, rfl⟩

-- An update that removes from the mappings of one entry removes from the directory.
private theorem Inv.interpMap_update_remove {d : Directory} (h : d.Inv) {base : Nat}
    {e : NodeEntry} (hle : d.baseVaddr ≤ base)
    (hn : d.indexForVaddr base < d.numEntries) (he : d.EntryInv (d.indexForVaddr base) e)
    (hrem : NodeEntry.interpMap (d.entryBase (d.indexForVaddr base)) e =
      (NodeEntry.interpMap (d.entryBase (d.indexForVaddr base))
        (d.entry (d.indexForVaddr base))).remove base) :
    (d.update (d.indexForVaddr base) e).interpMap = d.interpMap.remove base := by
  funext va
  rw [h.interpMap_update hn he]
  by_cases hcov : d.baseVaddr ≤ va ∧ d.indexForVaddr va = d.indexForVaddr base
  · rw [if_pos hcov, hrem, PMap.remove_apply, PMap.remove_apply, h.interpMap_apply hcov.1, hcov.2]
  · rw [if_neg hcov, PMap.remove_of_ne]
    rintro rfl
    exact hcov ⟨hle, rfl⟩

/-! ## Mapping a frame -/

section Accepted

variable {d : Directory} {base : Nat} {pte : PageTableEntry}

/-- An accepted page is not empty. -/
theorem AcceptedMapping.size_pos (ha : d.AcceptedMapping base pte) (h : d.Inv) :
    0 < pte.frame.size := by
  obtain ⟨i, _, hlt, hsize⟩ := ha.valid_size
  rw [← hsize]
  exact h.loc.arch_inv.entrySize_pos i hlt

private theorem AcceptedMapping.size_dvd (ha : d.AcceptedMapping base pte) (h : d.Inv) :
    pte.frame.size ∣ d.entrySize := by
  obtain ⟨i, hle, hlt, hsize⟩ := ha.valid_size
  rw [← hsize]
  exact h.loc.arch_inv.entrySize_dvd hle hlt

/-- An accepted request selects one of the entries. -/
theorem AcceptedMapping.index_lt (ha : d.AcceptedMapping base pte) (h : d.Inv) :
    d.indexForVaddr base < d.numEntries := by
  have hpos := ha.size_pos h
  have hup := ha.in_bounds.2
  exact Arch.indexForVaddr_lt h.loc.entrySize_pos ha.in_bounds.1
    (by change base < d.upperVaddr; omega)

/-- An address lies within the entry it selects. -/
theorem Inv.between_entryBase (h : d.Inv) (hle : d.baseVaddr ≤ base) :
    between base (d.entryBase (d.indexForVaddr base))
      (d.entryBase (d.indexForVaddr base + 1)) :=
  Arch.between_entryBase h.loc.entrySize_pos hle

private theorem AcceptedMapping.size_dvd_entryBase (ha : d.AcceptedMapping base pte) (h : d.Inv)
    (i : Nat) : pte.frame.size ∣ d.entryBase i := by
  have hes := ha.size_dvd h
  have hbase := (aligned_iff_dvd _ _).mp h.loc.base_aligned_entrySize
  exact Nat.dvd_add (Nat.dvd_trans hes hbase) (Dvd.dvd.mul_left hes i)

/-- An accepted region lies within the entry of its base address. -/
theorem AcceptedMapping.le_next_entryBase (ha : d.AcceptedMapping base pte) (h : d.Inv) :
    base + pte.frame.size ≤ d.entryBase (d.indexForVaddr base + 1) := by
  have hlt := (h.between_entryBase ha.in_bounds.1).2
  obtain ⟨x, hx⟩ := (aligned_iff_dvd _ _).mp ha.vaddr_aligned
  obtain ⟨y, hy⟩ := ha.size_dvd_entryBase h (d.indexForVaddr base + 1)
  have hxy : x + 1 ≤ y := by
    apply Nat.lt_of_mul_lt_mul_left (a := pte.frame.size)
    rw [← hx, ← hy]
    exact hlt
  calc base + pte.frame.size = pte.frame.size * (x + 1) := by rw [hx, Nat.mul_add, Nat.mul_one]
    _ ≤ pte.frame.size * y := Nat.mul_le_mul_left _ hxy
    _ = d.entryBase (d.indexForVaddr base + 1) := hy.symm

/-- A region of the layer's own size starts at the base of its entry. -/
theorem AcceptedMapping.entryBase_eq (ha : d.AcceptedMapping base pte) (h : d.Inv)
    (hsize : d.entrySize = pte.frame.size) : d.entryBase (d.indexForVaddr base) = base := by
  apply Arch.entryBase_index_of_aligned ha.in_bounds.1 h.loc.base_aligned_entrySize
  change aligned base d.entrySize
  rw [hsize]
  exact ha.vaddr_aligned

/-- A smaller accepted region is accepted by a directory in its entry
(`lemma_accepted_mapping_implies_directory_accepted_mapping`, `impl_u/l1.rs:929–972`). -/
theorem AcceptedMapping.sub (ha : d.AcceptedMapping base pte) (h : d.Inv)
    (hsize : d.entrySize ≠ pte.frame.size) {d' : Directory} (hlayer : d'.layer = d.layer + 1)
    (hbase : d'.baseVaddr = d.entryBase (d.indexForVaddr base)) (harch : d'.arch = d.arch)
    (hupper : d'.upperVaddr = d.entryBase (d.indexForVaddr base + 1)) :
    d'.AcceptedMapping base pte where
  vaddr_aligned := ha.vaddr_aligned
  frame_aligned := ha.frame_aligned
  in_bounds := by
    rw [hbase, hupper]
    exact ⟨(h.between_entryBase ha.in_bounds.1).1, ha.le_next_entryBase h⟩
  valid_size := by
    rw [harch, hlayer]
    exact Arch.containsEntrySizeAtIndexAtleast_succ ha.valid_size hsize

/-- Only the entry of the base address can hold a mapping that overlaps an accepted region. -/
theorem AcceptedMapping.overlaps_iff (ha : d.AcceptedMapping base pte) (h : d.Inv) :
    candidateMappingOverlapsExistingVmem d.interpMap base pte ↔
      candidateMappingOverlapsExistingVmem
        (NodeEntry.interpMap (d.entryBase (d.indexForVaddr base))
          (d.entry (d.indexForVaddr base))) base pte := by
  constructor
  · rintro ⟨b, p, hp, hov⟩
    have hpos := (h.interpMap_bounds hp).1
    rw [overlap_iff (ha.size_pos h) hpos] at hov
    obtain ⟨i, hi⟩ := h.interpMap_eq_some.mp hp
    have hb := h.entry_interpMap_bounds hi
    have hle := (h.between_entryBase ha.in_bounds.1).1
    have hnext := ha.le_next_entryBase h
    have hidx : i = d.indexForVaddr base := by
      rcases Nat.lt_trichotomy i (d.indexForVaddr base) with hlt | heq | hgt
      · have hmono : d.entryBase (i + 1) ≤ d.entryBase (d.indexForVaddr base) :=
          d.arch.entryBase_mono d.layer d.baseVaddr hlt
        omega
      · exact heq
      · have hmono : d.entryBase (d.indexForVaddr base + 1) ≤ d.entryBase i :=
          d.arch.entryBase_mono d.layer d.baseVaddr hgt
        omega
    subst hidx
    exact ⟨b, p, hi, (overlap_iff (ha.size_pos h) hpos).mpr hov⟩
  · rintro ⟨b, p, hp, hov⟩
    exact ⟨b, p, h.interpMap_eq_some.mpr ⟨_, hp⟩, hov⟩

/-- The new directory of `map_frame` meets the invariant (`lemma_new_empty_dir`,
`impl_u/l1.rs:859–878`). -/
theorem Inv.newEmptyDir (h : d.Inv) (hlt : d.layer + 1 < d.arch.layers.length) (i : Nat) :
    (d.newEmptyDir i).Inv ∧ (d.newEmptyDir i).Empty ∧
      (d.newEmptyDir i).upperVaddr = d.entryBase (i + 1) := by
  have hnext := h.loc.arch_inv.next_layer_size d.layer hlt
  have hwf : (d.newEmptyDir i).WellFormed := {
    arch_inv := h.loc.arch_inv
    layer_lt := hlt
    base_aligned := by
      change aligned (d.entryBase i)
        (d.arch.entrySize (d.layer + 1) * d.arch.numEntries (d.layer + 1))
      rw [← hnext]
      exact Arch.aligned_entryBase i h.loc.base_aligned_entrySize (Nat.mod_self _)
    entries_length := List.length_replicate
    flags_eq := rfl }
  have hempty : (d.newEmptyDir i).Empty :=
    hwf.empty_iff.mpr (fun j ↦ Table.getD_replicate_default _ _ j)
  refine ⟨hwf.inv_of_empty hempty, hempty, ?_⟩
  change d.entryBase i + d.arch.numEntries (d.layer + 1) * d.arch.entrySize (d.layer + 1) = _
  rw [entryBase_succ, entrySize, hnext, Nat.mul_comm]

end Accepted

/-- What a successful `map_frame` returns. -/
structure MapResult (d : Directory) (base : Nat) (pte : PageTableEntry) (d' : Directory) :
    Prop where
  inv : d'.Inv
  layer_eq : d'.layer = d.layer
  baseVaddr_eq : d'.baseVaddr = d.baseVaddr
  arch_eq : d'.arch = d.arch
  interpMap_eq : d'.interpMap = d.interpMap.insert base pte

private theorem MapResult.not_empty {d d' : Directory} {base : Nat} {pte : PageTableEntry}
    (h : d.MapResult base pte d') : ¬d'.Empty := by
  intro he
  have hmap := congrFun (h.inv.interpMap_of_empty he) base
  rw [h.interpMap_eq, PMap.insert_self, PMap.empty_apply] at hmap
  cases hmap

-- A successful recursive call inserts into the entry the call was made for.
private theorem MapResult.update {d d₀ d' : Directory} {base : Nat} {pte : PageTableEntry}
    (h : d.Inv) (ha : d.AcceptedMapping base pte) (hlayer : d₀.layer = d.layer + 1)
    (hbase : d₀.baseVaddr = d.entryBase (d.indexForVaddr base)) (harch : d₀.arch = d.arch)
    (hmap : d₀.interpMap = NodeEntry.interpMap (d.entryBase (d.indexForVaddr base))
      (d.entry (d.indexForVaddr base)))
    (hres : d₀.MapResult base pte d') :
    d.MapResult base pte (d.update (d.indexForVaddr base) (.directory d')) := by
  have he : d.EntryInv (d.indexForVaddr base) (.directory d') :=
    ⟨hres.inv, by rw [hres.layer_eq, hlayer], by rw [hres.baseVaddr_eq, hbase],
      by rw [hres.arch_eq, harch], hres.not_empty⟩
  exact {
    inv := h.update (ha.index_lt h) he
    layer_eq := rfl
    baseVaddr_eq := rfl
    arch_eq := rfl
    interpMap_eq := h.interpMap_update_insert ha.in_bounds.1 (ha.index_lt h) he
      (by rw [NodeEntry.interpMap, hres.interpMap_eq, hmap]) }

-- `map_frame` over the layers left refuses exactly the overlapping requests.
private theorem mapFrameRec_spec (n : Nat) {d : Directory} {base : Nat} {pte : PageTableEntry}
    (h : d.Inv) (hn : n = d.arch.layers.length - d.layer) (ha : d.AcceptedMapping base pte) :
    (candidateMappingOverlapsExistingVmem d.interpMap base pte →
      mapFrameRec n d base pte = .error d) ∧
    (¬candidateMappingOverlapsExistingVmem d.interpMap base pte →
      ∃ d', mapFrameRec n d base pte = .ok d' ∧ d.MapResult base pte d') := by
  induction n generalizing d with
  | zero => exact absurd h.loc.layer_lt (by omega)
  | succ n ih =>
    obtain ⟨hentry_le, hlt_next⟩ := h.between_entryBase ha.in_bounds.1
    rw [ha.overlaps_iff h, mapFrameRec]
    cases he : d.entry (d.indexForVaddr base) with
    | page q =>
      -- the page covers the base address, so the regions overlap
      refine ⟨fun _ ↦ rfl, fun hno ↦ absurd ?_ hno⟩
      have hq := h.loc.pages_match_entry_size _ q he
      refine ⟨d.entryBase (d.indexForVaddr base), q, PMap.insert_self _ _ _, ?_⟩
      rw [overlap_iff (ha.size_pos h) (hq ▸ h.loc.entrySize_pos), hq, ← entryBase_succ]
      have hpos := ha.size_pos h
      exact ⟨hlt_next, by omega⟩
    | directory d₀ =>
      obtain ⟨hinv, hlayer, hbase, harch, hne⟩ := he ▸ h.entryInv (d.indexForVaddr base)
      have hupper := h.sub_upperVaddr he
      by_cases hsize : d.entrySize = pte.frame.size
      · -- the directory is not empty, and the new region spans all of it
        simp only [if_pos hsize]
        refine ⟨fun _ ↦ trivial, fun hno ↦ absurd ?_ hno⟩
        obtain ⟨va, p, hp⟩ := hinv.exists_interpMap hne
        obtain ⟨hpos, hlow, hup⟩ := hinv.interpMap_bounds hp
        have hstart := ha.entryBase_eq h hsize
        rw [hbase, hstart] at hlow
        rw [hupper, entryBase_succ, hstart] at hup
        refine ⟨va, p, hp, ?_⟩
        rw [overlap_iff (ha.size_pos h) hpos, ← hsize]
        exact ⟨by omega, by omega⟩
      · simp only [if_neg hsize]
        obtain ⟨herr, hok⟩ := ih hinv (by rw [harch, hlayer]; omega)
          (ha.sub h hsize hlayer hbase harch hupper)
        constructor
        · intro hov
          rw [herr hov]
          simp only
          rw [← he, update_entry]
        · intro hno
          obtain ⟨d', hd', hres⟩ := hok hno
          rw [hd']
          exact ⟨_, rfl, MapResult.update h ha hlayer hbase harch
            (by rw [he, NodeEntry.interpMap]) hres⟩
    | empty =>
      have hnone : ¬candidateMappingOverlapsExistingVmem
          (NodeEntry.interpMap (d.entryBase (d.indexForVaddr base)) .empty) base pte := by
        rintro ⟨b, p, hp, _⟩
        cases hp
      refine ⟨fun hov ↦ absurd hov hnone, fun _ ↦ ?_⟩
      by_cases hsize : d.entrySize = pte.frame.size
      · simp only [if_pos hsize]
        have hpage : d.EntryInv (d.indexForVaddr base) (.page pte) :=
          ⟨hsize.symm, by rw [hsize]; exact ha.frame_aligned⟩
        exact ⟨_, rfl, {
          inv := h.update (ha.index_lt h) hpage
          layer_eq := rfl
          baseVaddr_eq := rfl
          arch_eq := rfl
          interpMap_eq := h.interpMap_update_insert ha.in_bounds.1 (ha.index_lt h) hpage
            (by rw [he, NodeEntry.interpMap, NodeEntry.interpMap, ha.entryBase_eq h hsize]) }⟩
      · simp only [if_neg hsize]
        obtain ⟨i, hle, hlt, _⟩ := Arch.containsEntrySizeAtIndexAtleast_succ ha.valid_size hsize
        obtain ⟨hinv, hempty, hupper⟩ :=
          h.newEmptyDir (by omega) (d.indexForVaddr base)
        have hmap := hinv.interpMap_of_empty hempty
        obtain ⟨d', hd', hres⟩ := (ih hinv
          (by change n = d.arch.layers.length - (d.layer + 1); omega)
          (ha.sub h hsize rfl rfl rfl hupper)).2
            (by
              rw [hmap]
              rintro ⟨b, p, hp, _⟩
              cases hp)
        rw [hd']
        have hlayer : (d.newEmptyDir (d.indexForVaddr base)).layer = d.layer + 1 := rfl
        exact ⟨_, rfl, MapResult.update h ha hlayer rfl rfl
          (by rw [hmap, he, NodeEntry.interpMap]) hres⟩

/-- `map_frame` refuses an accepted request that overlaps an existing mapping, and then
changes nothing. -/
theorem Inv.mapFrame_error {d : Directory} {base : Nat} {pte : PageTableEntry} (h : d.Inv)
    (ha : d.AcceptedMapping base pte)
    (hov : candidateMappingOverlapsExistingVmem d.interpMap base pte) :
    d.mapFrame base pte = .error d :=
  (mapFrameRec_spec _ h rfl ha).1 hov

/-- `map_frame` carries out every accepted request that overlaps no existing mapping. -/
theorem Inv.mapFrame_ok {d : Directory} {base : Nat} {pte : PageTableEntry} (h : d.Inv)
    (ha : d.AcceptedMapping base pte)
    (hno : ¬candidateMappingOverlapsExistingVmem d.interpMap base pte) :
    ∃ d', d.mapFrame base pte = .ok d' ∧ d.MapResult base pte d' :=
  (mapFrameRec_spec _ h rfl ha).2 hno

/-- Where mapping succeeds the request overlaps nothing, and only adds its page. -/
theorem Inv.mapFrame_eq_ok {d d' : Directory} {base : Nat} {pte : PageTableEntry} (h : d.Inv)
    (ha : d.AcceptedMapping base pte) (hok : d.mapFrame base pte = .ok d') :
    ¬candidateMappingOverlapsExistingVmem d.interpMap base pte ∧ d.MapResult base pte d' := by
  by_cases hov : candidateMappingOverlapsExistingVmem d.interpMap base pte
  · rw [h.mapFrame_error ha hov] at hok
    cases hok
  · obtain ⟨d'', hd'', hres⟩ := h.mapFrame_ok ha hov
    rw [hok, Except.ok.injEq] at hd''
    rw [hd'']
    exact ⟨hov, hres⟩

/-- Where mapping fails the request overlaps a mapping. -/
theorem Inv.mapFrame_eq_error {d d' : Directory} {base : Nat} {pte : PageTableEntry} (h : d.Inv)
    (ha : d.AcceptedMapping base pte) (herr : d.mapFrame base pte = .error d') :
    candidateMappingOverlapsExistingVmem d.interpMap base pte := by
  by_contra hno
  obtain ⟨d'', hd'', _⟩ := h.mapFrame_ok ha hno
  rw [herr] at hd''
  cases hd''

/-! ## Unmapping a frame -/

/-- What a successful `unmap` returns. -/
structure UnmapResult (d : Directory) (base : Nat) (d' : Directory) : Prop where
  inv : d'.Inv
  layer_eq : d'.layer = d.layer
  baseVaddr_eq : d'.baseVaddr = d.baseVaddr
  arch_eq : d'.arch = d.arch
  interpMap_eq : d'.interpMap = d.interpMap.remove base

-- Replacing the entry of an address by one that maps the same but for the address.
private theorem Inv.unmapResult_update {d : Directory} (h : d.Inv) {base : Nat}
    (hle : d.baseVaddr ≤ base) (hlt : base < d.upperVaddr) {e : NodeEntry}
    (he : d.EntryInv (d.indexForVaddr base) e)
    (hrem : NodeEntry.interpMap (d.entryBase (d.indexForVaddr base)) e =
      (NodeEntry.interpMap (d.entryBase (d.indexForVaddr base))
        (d.entry (d.indexForVaddr base))).remove base) :
    d.UnmapResult base (d.update (d.indexForVaddr base) e) := by
  have hidx : d.indexForVaddr base < d.numEntries :=
    Arch.indexForVaddr_lt h.loc.entrySize_pos hle hlt
  exact {
    inv := h.update hidx he
    layer_eq := rfl
    baseVaddr_eq := rfl
    arch_eq := rfl
    interpMap_eq := h.interpMap_update_remove hle hidx he hrem }

private theorem unmapRec_spec (n : Nat) {d : Directory} {base : Nat} (h : d.Inv)
    (hn : n = d.arch.layers.length - d.layer) (hle : d.baseVaddr ≤ base)
    (hlt : base < d.upperVaddr) :
    (d.interpMap base = none → unmapRec n d base = .error d) ∧
    (d.interpMap base ≠ none →
      ∃ d', unmapRec n d base = .ok d' ∧ d.UnmapResult base d') := by
  induction n generalizing d with
  | zero => exact absurd h.loc.layer_lt (by omega)
  | succ n ih =>
    obtain ⟨hentry_le, hlt_next⟩ := h.between_entryBase hle
    rw [h.interpMap_apply hle, unmapRec]
    cases he : d.entry (d.indexForVaddr base) with
    | page q =>
      rw [NodeEntry.interpMap]
      by_cases hal : aligned base d.entrySize
      · have hbase : d.entryBase (d.indexForVaddr base) = base :=
          Arch.entryBase_index_of_aligned hle h.loc.base_aligned_entrySize hal
        simp only [if_pos hal]
        constructor
        · intro hnone
          rw [hbase, PMap.insert_self] at hnone
          cases hnone
        · intro _
          refine ⟨_, rfl, h.unmapResult_update hle hlt trivial ?_⟩
          rw [he, hbase, NodeEntry.interpMap, NodeEntry.interpMap]
          funext va
          by_cases hva : va = base
          · rw [hva, PMap.remove_self, PMap.empty_apply]
          · rw [PMap.remove_of_ne _ hva, PMap.insert_of_ne _ _ hva]
      · -- the address lies inside the page, past its base
        have hne : base ≠ d.entryBase (d.indexForVaddr base) := by
          intro heq
          apply hal
          rw [heq]
          exact Arch.aligned_entryBase _ h.loc.base_aligned_entrySize (Nat.mod_self _)
        simp only [if_neg hal]
        refine ⟨fun _ ↦ trivial, fun hsome ↦ absurd ?_ hsome⟩
        rw [PMap.insert_of_ne _ _ hne, PMap.empty_apply]
    | directory d₀ =>
      obtain ⟨hinv, hlayer, hbase, harch, hne⟩ := he ▸ h.entryInv (d.indexForVaddr base)
      obtain ⟨herr, hok⟩ := ih hinv (by rw [harch, hlayer]; omega)
        (by rw [hbase]; exact hentry_le) (by rw [h.sub_upperVaddr he]; exact hlt_next)
      rw [NodeEntry.interpMap]
      dsimp only
      constructor
      · intro hnone
        rw [herr hnone]
        simp only
        rw [← he, update_entry]
      · intro hsome
        obtain ⟨newD, hnew, hres⟩ := hok hsome
        rw [hnew]
        refine ⟨_, rfl, h.unmapResult_update hle hlt ?_ ?_⟩
        · by_cases hempty : newD.Empty
          · rw [if_pos hempty]
            trivial
          · rw [if_neg hempty]
            exact ⟨hres.inv, by rw [hres.layer_eq, hlayer], by rw [hres.baseVaddr_eq, hbase],
              by rw [hres.arch_eq, harch], hempty⟩
        · rw [he, NodeEntry.interpMap, ← hres.interpMap_eq]
          by_cases hempty : newD.Empty
          · rw [if_pos hempty, hres.inv.interpMap_of_empty hempty, NodeEntry.interpMap]
          · rw [if_neg hempty, NodeEntry.interpMap]
    | empty =>
      refine ⟨fun _ ↦ rfl, fun hsome ↦ absurd ?_ hsome⟩
      rw [NodeEntry.interpMap, PMap.empty_apply]

/-- `unmap` refuses an address that is not the base of a mapping, and then changes
nothing. -/
theorem Inv.unmap_error {d : Directory} {base : Nat} (h : d.Inv) (ha : d.AcceptedUnmap base)
    (hnone : d.interpMap base = none) : d.unmap base = .error d :=
  (unmapRec_spec _ h rfl ha.1.1 ha.1.2).1 hnone

/-- `unmap` removes the mapping that starts at an accepted address. -/
theorem Inv.unmap_ok {d : Directory} {base : Nat} (h : d.Inv) (ha : d.AcceptedUnmap base)
    (hsome : d.interpMap base ≠ none) :
    ∃ d', d.unmap base = .ok d' ∧ d.UnmapResult base d' :=
  (unmapRec_spec _ h rfl ha.1.1 ha.1.2).2 hsome

/-- Where unmapping succeeds the address is the base of a mapping, and only that is removed. -/
theorem Inv.unmap_eq_ok {d d' : Directory} {base : Nat} (h : d.Inv) (ha : d.AcceptedUnmap base)
    (hok : d.unmap base = .ok d') : d.interpMap base ≠ none ∧ d.UnmapResult base d' := by
  by_cases hnone : d.interpMap base = none
  · rw [h.unmap_error ha hnone] at hok
    cases hok
  · obtain ⟨d'', hd'', hres⟩ := h.unmap_ok ha hnone
    rw [hok, Except.ok.injEq] at hd''
    rw [hd'']
    exact ⟨hnone, hres⟩

/-- Where unmapping fails no mapping starts at the address. -/
theorem Inv.unmap_eq_error {d d' : Directory} {base : Nat} (h : d.Inv) (ha : d.AcceptedUnmap base)
    (herr : d.unmap base = .error d') : d.interpMap base = none := by
  by_contra hsome
  obtain ⟨d'', hd'', _⟩ := h.unmap_ok ha hsome
  rw [herr] at hd''
  cases hd''

end Directory

end NrKernel.PageTable
