import NrKernel.PageTable.DirectoryOps

/-!
# Directory trees refine flat contents

Mapping, unmapping and resolving in a directory tree of any architecture are mapping,
unmapping and resolving in its flat contents (`impl_u/l1.rs` against `impl_u/l0.rs`): each
operation decides at the one entry of its address what the flat operation decides by looking
at every mapping.
-/

namespace NrKernel.PageTable

open Lib

/-- `result_map` (`extra.rs:224–229`). -/
def resultMap {A B : Type} (res : Except A A) (f : A → B) : Except B B :=
  match res with
  | .ok a => .ok (f a)
  | .error a => .error (f a)

/-! ## Resolving in a directory tree -/

namespace Directory

/-- The recursion of `resolve` over the layers that are left. -/
def resolveRec : Nat → Directory → Nat → Except Unit (Nat × PageTableEntry)
  | 0, _, _ => .error ()
  | n + 1, d, vaddr =>
    let entry := d.indexForVaddr vaddr
    match d.entry entry with
    | .page pte => .ok (d.entryBase entry, pte)
    | .directory d' => resolveRec n d' vaddr
    | .empty => .error ()

/-- `resolve` (`impl_u/l1.rs:553–574`), for directories with the invariant and accepted
addresses; the recursion decreases the number of layers below the directory. -/
def resolve (d : Directory) (vaddr : Nat) : Except Unit (Nat × PageTableEntry) :=
  resolveRec (d.arch.layers.length - d.layer) d vaddr

section Unfolding

variable {d : Directory} {vaddr : Nat}

private theorem Inv.resolve_succ (h : d.Inv) :
    d.resolve vaddr = resolveRec (d.arch.layers.length - (d.layer + 1) + 1) d vaddr := by
  have hlt := h.loc.layer_lt
  have hlayers : d.arch.layers.length - d.layer = d.arch.layers.length - (d.layer + 1) + 1 := by
    omega
  rw [resolve, hlayers]

/-- An address below a page resolves to it. -/
theorem Inv.resolve_page (h : d.Inv) {q : PageTableEntry}
    (he : d.entry (d.indexForVaddr vaddr) = .page q) :
    d.resolve vaddr = .ok (d.entryBase (d.indexForVaddr vaddr), q) := by
  rw [h.resolve_succ, resolveRec, he]

/-- An address below a directory resolves in it. -/
theorem Inv.resolve_directory (h : d.Inv) {d' : Directory}
    (he : d.entry (d.indexForVaddr vaddr) = .directory d') :
    d.resolve vaddr = d'.resolve vaddr := by
  have hsub : d'.resolve vaddr = resolveRec (d.arch.layers.length - (d.layer + 1)) d' vaddr := by
    rw [resolve, h.loc.directories_match_arch _ d' he,
      (h.loc.directories_are_in_next_layer _ d' he).1]
  rw [h.resolve_succ, resolveRec, he, hsub]

/-- An address below an empty entry does not resolve. -/
theorem Inv.resolve_empty (h : d.Inv) (he : d.entry (d.indexForVaddr vaddr) = .empty) :
    d.resolve vaddr = .error () := by
  rw [h.resolve_succ, resolveRec, he]

end Unfolding

/-- Only the entry of an address can hold a mapping that covers the address. -/
theorem Inv.covers_iff {d : Directory} (h : d.Inv) {vaddr : Nat} {r : Nat × PageTableEntry} :
    d.interp.Covers vaddr r ↔
      NodeEntry.interpMap (d.entryBase (d.indexForVaddr vaddr))
        (d.entry (d.indexForVaddr vaddr)) r.1 = some r.2 ∧
      between vaddr r.1 (r.1 + r.2.frame.size) := by
  unfold PageTableContents.Covers
  rw [interp_map, h.interpMap_eq_some]
  constructor
  · rintro ⟨⟨i, hi⟩, hcov⟩
    obtain ⟨hlow, hup⟩ := h.entry_interpMap_bounds hi
    have hidx : d.indexForVaddr vaddr = i := by
      apply Arch.indexForVaddr_eq
      exact ⟨Nat.le_trans hlow hcov.1, Nat.lt_of_lt_of_le hcov.2 hup⟩
    rw [hidx]
    exact ⟨hi, hcov⟩
  · exact fun hcov ↦ ⟨⟨_, hcov.1⟩, hcov.2⟩

/-- `resolve` finds exactly the mappings that cover the address. -/
theorem Inv.resolve_eq_ok_iff {d : Directory} (h : d.Inv) {vaddr : Nat} (hle : d.baseVaddr ≤ vaddr)
    (r : Nat × PageTableEntry) : d.resolve vaddr = .ok r ↔ d.interp.Covers vaddr r := by
  induction h with
  | @intro d loc sub ih =>
    have h : d.Inv := .intro loc sub
    have hentry := h.between_entryBase hle
    rw [h.covers_iff]
    cases he : d.entry (d.indexForVaddr vaddr) with
    | page q =>
      rw [h.resolve_page he, NodeEntry.interpMap, PMap.insert_eq_some, Except.ok.injEq]
      constructor
      · rintro rfl
        have hsize := loc.pages_match_entry_size _ q he
        rw [entryBase_succ, ← hsize] at hentry
        exact ⟨.inl ⟨rfl, rfl⟩, hentry⟩
      · rintro ⟨⟨hbase, hq⟩ | ⟨_, hnone⟩, _⟩
        · exact Prod.ext hbase.symm hq
        · cases hnone
    | directory d' =>
      have hbase := (loc.directories_are_in_next_layer _ d' he).2
      rw [h.resolve_directory he, ih _ d' he (by rw [hbase]; exact hentry.1)]
      rfl
    | empty =>
      rw [h.resolve_empty he, NodeEntry.interpMap, PMap.empty_apply]
      simp

/-- `resolve` fails exactly where no mapping covers the address. -/
theorem Inv.resolve_eq_error_iff {d : Directory} (h : d.Inv) {vaddr : Nat}
    (hle : d.baseVaddr ≤ vaddr) :
    d.resolve vaddr = .error () ↔ ∀ r, ¬d.interp.Covers vaddr r := by
  simp only [← h.resolve_eq_ok_iff hle]
  cases d.resolve vaddr with
  | ok r => simp
  | error e => simp

/-- At most one mapping covers an address. -/
theorem Inv.covers_unique {d : Directory} (h : d.Inv) {vaddr : Nat} {r r' : Nat × PageTableEntry}
    (hr : d.interp.Covers vaddr r) (hr' : d.interp.Covers vaddr r') : r = r' := by
  have hle : d.baseVaddr ≤ vaddr := Nat.le_trans (h.interpMap_bounds hr.1).2.1 hr.2.1
  have hok := (h.resolve_eq_ok_iff hle r).mpr hr
  have hok' := (h.resolve_eq_ok_iff hle r').mpr hr'
  exact Except.ok.inj (hok.symm.trans hok')

/-- Resolving in a tree is resolving in its flat contents (`lemma_resolve_refines`,
`impl_u/l1.rs:713–793`). -/
theorem Inv.resolve_eq {d : Directory} (h : d.Inv) {vaddr : Nat} (hle : d.baseVaddr ≤ vaddr) :
    d.resolve vaddr = d.interp.resolve vaddr := by
  unfold PageTableContents.resolve
  by_cases hex : ∃ r, d.interp.Covers vaddr r
  · rw [dif_pos hex]
    exact (h.resolve_eq_ok_iff hle _).mpr hex.choose_spec
  · rw [dif_neg hex]
    apply (h.resolve_eq_error_iff hle).mpr
    exact fun r hr ↦ hex ⟨r, hr⟩

end Directory

/-! ## Mapping and unmapping -/

namespace Directory

/-- A request that a directory accepts is accepted by its flat contents
(`lemma_accepted_mapping_implies_interp_accepted_mapping_manual`, `impl_u/l1.rs:819–827`). -/
theorem AcceptedMapping.interp {d : Directory} {base : Nat} {pte : PageTableEntry}
    (ha : d.AcceptedMapping base pte) : d.interp.AcceptedMapping base pte where
  vaddr_aligned := ha.vaddr_aligned
  frame_aligned := ha.frame_aligned
  in_bounds := ha.in_bounds
  valid_size := by
    obtain ⟨i, _, hlt, hsize⟩ := ha.valid_size
    exact ⟨i, Nat.zero_le i, hlt, hsize⟩

/-- A request overlaps no mapping exactly when it does not overlap some mapping. -/
theorem validMapping_iff (d : Directory) (base : Nat) (pte : PageTableEntry) :
    d.interp.ValidMapping base pte ↔
      ¬candidateMappingOverlapsExistingVmem d.interpMap base pte := by
  unfold PageTableContents.ValidMapping candidateMappingOverlapsExistingVmem
  rw [interp_map]
  push Not
  rfl

private theorem MapResult.interp_eq {d d' : Directory} {base : Nat} {pte : PageTableEntry}
    (h : d.MapResult base pte d') :
    d'.interp = { d.interp with map := d.interp.map.insert base pte } := by
  unfold Directory.interp upperVaddr
  rw [h.interpMap_eq, h.arch_eq, h.baseVaddr_eq, h.layer_eq]

private theorem UnmapResult.interp_eq {d d' : Directory} {base : Nat} (h : d.UnmapResult base d') :
    d'.interp = { d.interp with map := d.interp.map.remove base } := by
  unfold Directory.interp upperVaddr
  rw [h.interpMap_eq, h.arch_eq, h.baseVaddr_eq, h.layer_eq]

/-- Mapping in a tree is mapping in its flat contents (`lemma_map_frame_refines_map_frame`,
`impl_u/l1.rs:1272–1412`). -/
theorem Inv.mapFrame_refines {d : Directory} (h : d.Inv) {base : Nat} {pte : PageTableEntry}
    (ha : d.AcceptedMapping base pte) :
    resultMap (d.mapFrame base pte) Directory.interp = d.interp.mapFrame base pte := by
  unfold PageTableContents.mapFrame
  by_cases hvalid : d.interp.ValidMapping base pte
  · obtain ⟨d', hd', hres⟩ := h.mapFrame_ok ha ((d.validMapping_iff base pte).mp hvalid)
    rw [if_pos hvalid, hd', resultMap, hres.interp_eq]
  · have hov : candidateMappingOverlapsExistingVmem d.interpMap base pte := by
      by_contra hno
      exact hvalid ((d.validMapping_iff base pte).mpr hno)
    rw [if_neg hvalid, h.mapFrame_error ha hov, resultMap]

/-- Unmapping in a tree is unmapping in its flat contents (`lemma_unmap_refines_unmap`,
`impl_u/l1.rs:1556–1642`). -/
theorem Inv.unmap_refines {d : Directory} (h : d.Inv) {base : Nat} (ha : d.AcceptedUnmap base) :
    resultMap (d.unmap base) Directory.interp = d.interp.unmap base := by
  unfold PageTableContents.unmap
  rw [interp_map]
  cases hmap : d.interpMap base with
  | none => rw [if_neg (by simp), h.unmap_error ha hmap, resultMap]
  | some p =>
    obtain ⟨d', hd', hres⟩ := h.unmap_ok ha (by simp [hmap])
    rw [if_pos (by simp), hd', resultMap, hres.interp_eq, interp_map]

/-- `map_frame` keeps the invariant, whether it succeeds or fails. -/
theorem Inv.mapFrame_inv {d d' : Directory} (h : d.Inv) {base : Nat} {pte : PageTableEntry}
    (ha : d.AcceptedMapping base pte)
    (hres : d.mapFrame base pte = .ok d' ∨ d.mapFrame base pte = .error d') : d'.Inv := by
  rcases hres with hok | herr
  · exact (h.mapFrame_eq_ok ha hok).2.inv
  · rw [h.mapFrame_error ha (h.mapFrame_eq_error ha herr), Except.error.injEq] at herr
    rwa [← herr]

/-- `unmap` keeps the invariant, whether it succeeds or fails. -/
theorem Inv.unmap_inv {d d' : Directory} (h : d.Inv) {base : Nat} (ha : d.AcceptedUnmap base)
    (hres : d.unmap base = .ok d' ∨ d.unmap base = .error d') : d'.Inv := by
  rcases hres with hok | herr
  · exact (h.unmap_eq_ok ha hok).2.inv
  · rw [h.unmap_error ha (h.unmap_eq_error ha herr), Except.error.injEq] at herr
    rwa [← herr]

end Directory

/-! ## Main result -/

/-- The directory algorithm refines the flat map, for every architecture: accepted requests
keep the invariant and have the flat operation's result, also where they fail, and the flat
contents of a directory are well formed. -/
theorem directory_refines_contents (d : Directory) (h : d.Inv) :
    d.interp.Inv ∧
    (∀ base pte, d.AcceptedMapping base pte →
      d.interp.AcceptedMapping base pte ∧
      resultMap (d.mapFrame base pte) Directory.interp = d.interp.mapFrame base pte ∧
      ∀ d', d.mapFrame base pte = .ok d' ∨ d.mapFrame base pte = .error d' → d'.Inv) ∧
    (∀ base, d.AcceptedUnmap base →
      resultMap (d.unmap base) Directory.interp = d.interp.unmap base ∧
      ∀ d', d.unmap base = .ok d' ∨ d.unmap base = .error d' → d'.Inv) ∧
    (∀ vaddr, d.interp.AcceptedResolve vaddr → d.resolve vaddr = d.interp.resolve vaddr) := by
  refine ⟨h.interp_inv, ?_, ?_, ?_⟩
  · intro base pte ha
    exact ⟨ha.interp, h.mapFrame_refines ha, fun d' hres ↦ h.mapFrame_inv ha hres⟩
  · intro base ha
    exact ⟨h.unmap_refines ha, fun d' hres ↦ h.unmap_inv ha hres⟩
  · exact fun vaddr ha ↦ h.resolve_eq ha.1

/-- An architecture of two layers with two entries each. -/
def twoLayerArch : Arch where
  layers := [⟨8192, 2⟩, ⟨4096, 2⟩]

/-- A root directory of that architecture without entries. -/
def twoLayerRoot : Directory where
  entries := [.empty, .empty]
  layer := 0
  baseVaddr := 0
  arch := twoLayerArch
  flags := permissiveFlags

private theorem twoLayerRoot_inv : twoLayerRoot.Inv := by
  have hwf : twoLayerRoot.WellFormed := {
    arch_inv := {
      num_layers := by decide
      entrySize_pos := by decide
      entrySize_le := by decide
      numEntries_pos := by decide
      numEntries_le := by decide
      next_layer_size := by
        intro i hi
        have hi' : i + 1 < 2 := hi
        obtain rfl : i = 0 := by omega
        rfl }
    layer_lt := by decide
    base_aligned := by decide
    entries_length := rfl
    flags_eq := rfl }
  exact hwf.inv_of_empty (by decide)

/-- A page of the lower layer. -/
def lowerPage : PageTableEntry := ⟨⟨0x5000, 4096⟩, ⟨true, false, true⟩⟩

/-- A page of the upper layer. -/
def upperPage : PageTableEntry := ⟨⟨0x8000, 8192⟩, ⟨false, true, false⟩⟩

/-- A directory below the root with a page in its second entry. -/
def twoLayerSub : Directory where
  entries := [.empty, .page lowerPage]
  layer := 1
  baseVaddr := 0
  arch := twoLayerArch
  flags := permissiveFlags

/-- The root with this directory and a page. -/
def twoLayerDir : Directory :=
  { twoLayerRoot with entries := [.directory twoLayerSub, .page upperPage] }

/-- Two requests lead to it from the root. -/
theorem twoLayerDir_inv : twoLayerDir.Inv := by
  have hlower : twoLayerRoot.mapFrame 4096 lowerPage =
      .ok { twoLayerRoot with entries := [.directory twoLayerSub, .empty] } := rfl
  have hupper : Directory.mapFrame
      { twoLayerRoot with entries := [.directory twoLayerSub, .empty] } 8192 upperPage =
      .ok twoLayerDir := rfl
  have hfirst : twoLayerRoot.AcceptedMapping 4096 lowerPage :=
    ⟨by decide, by decide, by decide, 1, by decide, by decide, rfl⟩
  have hsecond : Directory.AcceptedMapping
      { twoLayerRoot with entries := [.directory twoLayerSub, .empty] } 8192 upperPage :=
    ⟨by decide, by decide, by decide, 0, by decide, by decide, rfl⟩
  exact (twoLayerRoot_inv.mapFrame_inv hfirst (.inl hlower)).mapFrame_inv hsecond (.inl hupper)

/-- A directory with a mapping and a subdirectory. -/
theorem directory_refines_contents_twoLayers :
    twoLayerDir.interp.Inv ∧
    (∀ base pte, twoLayerDir.AcceptedMapping base pte →
      twoLayerDir.interp.AcceptedMapping base pte ∧
      resultMap (twoLayerDir.mapFrame base pte) Directory.interp =
        twoLayerDir.interp.mapFrame base pte ∧
      ∀ d', twoLayerDir.mapFrame base pte = .ok d' ∨
        twoLayerDir.mapFrame base pte = .error d' → d'.Inv) ∧
    (∀ base, twoLayerDir.AcceptedUnmap base →
      resultMap (twoLayerDir.unmap base) Directory.interp = twoLayerDir.interp.unmap base ∧
      ∀ d', twoLayerDir.unmap base = .ok d' ∨ twoLayerDir.unmap base = .error d' → d'.Inv) ∧
    (∀ vaddr, twoLayerDir.interp.AcceptedResolve vaddr →
      twoLayerDir.resolve vaddr = twoLayerDir.interp.resolve vaddr) :=
  directory_refines_contents twoLayerDir twoLayerDir_inv

end NrKernel.PageTable
