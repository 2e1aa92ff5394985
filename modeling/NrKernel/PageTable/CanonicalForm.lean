import NrKernel.Lib.Transition
import NrKernel.PageTable.DirectoryOps

/-!
# Directory trees are canonical

On x86-64 the flattened map determines the tree: empty entries, page entries and nonempty
subdirectories leave different mappings in the range of their entry, because a page spans
the whole range, and a subdirectory maps something smaller in it. So how a tree came about
does not show in it, and mapping and unmapping undo each other.
-/

namespace NrKernel.PageTable

open Lib Lib.Machine

namespace Directory

/-! ## The mappings of one entry -/

private theorem Inv.entry_interpMap_eq_some {d : Directory} (h : d.Inv) {i va : Nat}
    {p : PageTableEntry} : NodeEntry.interpMap (d.entryBase i) (d.entry i) va = some p ↔
      d.interpMap va = some p ∧ between va (d.entryBase i) (d.entryBase (i + 1)) := by
  constructor
  · intro hp
    have hmap := h.interpMap_eq_some.mpr ⟨i, hp⟩
    have hpos := (h.interpMap_bounds hmap).1
    obtain ⟨hlow, hup⟩ := h.entry_interpMap_bounds hp
    exact ⟨hmap, hlow, by omega⟩
  · rintro ⟨hp, hin⟩
    have hidx : d.indexForVaddr va = i := Arch.indexForVaddr_eq hin
    rw [h.interpMap_apply (h.interpMap_bounds hp).2.1, hidx] at hp
    exact hp

/-- Entries of directories at one place that map the same map the same. -/
theorem Inv.entry_interpMap_eq {d₁ d₂ : Directory} (h₁ : d₁.Inv) (h₂ : d₂.Inv)
    (hbase : d₁.entryBase = d₂.entryBase) (hmap : d₁.interpMap = d₂.interpMap) (i : Nat) :
    NodeEntry.interpMap (d₁.entryBase i) (d₁.entry i) =
      NodeEntry.interpMap (d₂.entryBase i) (d₂.entry i) := by
  funext va
  apply Option.ext
  intro p
  rw [h₁.entry_interpMap_eq_some, h₂.entry_interpMap_eq_some, hmap, hbase]

/-- No mapping of a directory is larger than its entries. -/
theorem Inv.interpMap_size_le {d : Directory} (h : d.Inv) {va : Nat} {p : PageTableEntry}
    (hp : d.interpMap va = some p) : p.frame.size ≤ d.entrySize := by
  obtain ⟨i, hi⟩ := h.interpMap_eq_some.mp hp
  obtain ⟨hlow, hup⟩ := h.entry_interpMap_bounds hi
  rw [entryBase_succ] at hup
  omega

/-- On x86-64 the mappings of a subdirectory are smaller than the entry it sits in. -/
theorem Inv.sub_interpMap_size_lt {d d' : Directory} (h : d.Inv) (harch : d.arch = x86Arch)
    {i va : Nat} {p : PageTableEntry} (he : d.entry i = .directory d')
    (hp : d'.interpMap va = some p) : p.frame.size < d.entrySize := by
  have hsub := h.sub he
  have harch' : d'.arch = x86Arch := by rw [h.loc.directories_match_arch i d' he, harch]
  have hlayer := (h.loc.directories_are_in_next_layer i d' he).1
  have hlt : d.layer + 1 < 4 := by
    have hlt' := hsub.loc.layer_lt
    rw [harch', hlayer] at hlt'
    exact hlt'
  have hle := hsub.interpMap_size_le hp
  have hnext : d.entrySize = d'.entrySize * 512 := by
    rw [entrySize, entrySize, harch, harch', hlayer, x86Arch_inv.next_layer_size d.layer hlt,
      x86Arch_numEntries hlt]
  have hpos := hsub.loc.entrySize_pos
  omega

/-! ## Equal maps, equal trees -/

private theorem Inv.entry_eq_empty {d : Directory} (h : d.Inv) {i : Nat}
    (hnone : NodeEntry.interpMap (d.entryBase i) (d.entry i) = PMap.empty) :
    d.entry i = .empty := by
  cases he : d.entry i with
  | empty => rfl
  | page q =>
    rw [he, NodeEntry.interpMap] at hnone
    have hval := congrFun hnone (d.entryBase i)
    rw [PMap.insert_self, PMap.empty_apply] at hval
    cases hval
  | directory d' =>
    obtain ⟨va, p, hp⟩ := (h.sub he).exists_interpMap (h.loc.directories_are_nonempty i d' he)
    rw [he, NodeEntry.interpMap] at hnone
    rw [hnone, PMap.empty_apply] at hp
    cases hp

private theorem Inv.entry_eq_page {d : Directory} (h : d.Inv) (harch : d.arch = x86Arch) {i : Nat}
    {q : PageTableEntry} (hsize : q.frame.size = d.entrySize)
    (hpage : NodeEntry.interpMap (d.entryBase i) (d.entry i) =
      PMap.empty.insert (d.entryBase i) q) : d.entry i = .page q := by
  have hval := congrFun hpage (d.entryBase i)
  rw [PMap.insert_self] at hval
  cases he : d.entry i with
  | empty =>
    rw [he, NodeEntry.interpMap, PMap.empty_apply] at hval
    cases hval
  | page q' =>
    rw [he, NodeEntry.interpMap, PMap.insert_self, Option.some.injEq] at hval
    rw [hval]
  | directory d' =>
    rw [he, NodeEntry.interpMap] at hval
    have hlt := h.sub_interpMap_size_lt harch he hval
    omega

private theorem WellFormed.eq_of_entries {d₁ d₂ : Directory} (h₁ : d₁.WellFormed)
    (h₂ : d₂.WellFormed) (harch : d₁.arch = d₂.arch) (hlayer : d₁.layer = d₂.layer)
    (hbase : d₁.baseVaddr = d₂.baseVaddr) (hentry : ∀ i, d₁.entry i = d₂.entry i) : d₁ = d₂ := by
  have hlen : d₁.entries.length = d₂.entries.length := by
    rw [h₁.entries_length, h₂.entries_length, numEntries, numEntries, harch, hlayer]
  have hentries : d₁.entries = d₂.entries := by
    apply List.ext_getElem hlen
    intro i hi₁ hi₂
    have hi := hentry i
    rw [entry, entry, List.getD_eq_getElem _ _ hi₁, List.getD_eq_getElem _ _ hi₂] at hi
    exact hi
  have hflags : d₁.flags = d₂.flags := by rw [h₁.flags_eq, h₂.flags_eq]
  cases d₁
  cases d₂
  simp only at harch hlayer hbase hentries hflags
  rw [harch, hlayer, hbase, hentries, hflags]

/-- The flattening is injective on the directories of one place. -/
theorem Inv.eq_of_interpMap_eq {d₁ d₂ : Directory} (h₁ : d₁.Inv) (h₂ : d₂.Inv)
    (harch₁ : d₁.arch = x86Arch) (harch₂ : d₂.arch = x86Arch) (hlayer : d₁.layer = d₂.layer)
    (hbase : d₁.baseVaddr = d₂.baseVaddr) (hmap : d₁.interpMap = d₂.interpMap) : d₁ = d₂ := by
  induction h₁ generalizing d₂ with
  | @intro d₁ loc sub ih =>
    have h₁ : d₁.Inv := .intro loc sub
    have harch : d₁.arch = d₂.arch := harch₁.trans harch₂.symm
    have hentryBase : d₁.entryBase = d₂.entryBase := by
      funext i
      rw [entryBase, entryBase, harch, hlayer, hbase]
    have hentrySize : d₁.entrySize = d₂.entrySize := by rw [entrySize, entrySize, harch, hlayer]
    apply loc.toWellFormed.eq_of_entries h₂.loc.toWellFormed harch hlayer hbase
    intro i
    have hsame := h₁.entry_interpMap_eq h₂ hentryBase hmap i
    cases he₁ : d₁.entry i with
    | empty =>
      rw [he₁, NodeEntry.interpMap] at hsame
      exact (h₂.entry_eq_empty hsame.symm).symm
    | page q =>
      have hsize := loc.pages_match_entry_size i q he₁
      rw [he₁, NodeEntry.interpMap, hentryBase] at hsame
      exact (h₂.entry_eq_page harch₂ (hsize.trans hentrySize) hsame.symm).symm
    | directory d₁' =>
      cases he₂ : d₂.entry i with
      | empty =>
        rw [he₂, NodeEntry.interpMap] at hsame
        rw [h₁.entry_eq_empty hsame] at he₁
        cases he₁
      | page q =>
        have hsize := h₂.loc.pages_match_entry_size i q he₂
        rw [he₂, NodeEntry.interpMap, ← hentryBase] at hsame
        rw [h₁.entry_eq_page harch₁ (hsize.trans hentrySize.symm) hsame] at he₁
        cases he₁
      | directory d₂' =>
        rw [he₁, he₂, NodeEntry.interpMap, NodeEntry.interpMap] at hsame
        obtain ⟨hlayer₁, hbase₁⟩ := loc.directories_are_in_next_layer i d₁' he₁
        obtain ⟨hlayer₂, hbase₂⟩ := h₂.loc.directories_are_in_next_layer i d₂' he₂
        have harch₁' := loc.directories_match_arch i d₁' he₁
        have harch₂' := h₂.loc.directories_match_arch i d₂' he₂
        have heq : d₁' = d₂' := by
          apply ih i d₁' he₁ (h₂.sub he₂)
          · rw [harch₁', harch₁]
          · rw [harch₂', harch₂]
          · rw [hlayer₁, hlayer₂, hlayer]
          · rw [hbase₁, hbase₂, hentryBase]
          · exact hsame
        rw [heq]

/-! ## Mapping and unmapping undo each other -/

/-- Sizes of mappings are entry sizes of the directory's layer or a deeper one. -/
theorem Inv.interpMap_valid_size {d : Directory} (h : d.Inv) {va : Nat} {p : PageTableEntry}
    (hp : d.interpMap va = some p) :
    d.arch.containsEntrySizeAtIndexAtleast p.frame.size d.layer := by
  induction h with
  | @intro d loc sub ih =>
    have h : d.Inv := .intro loc sub
    obtain ⟨i, hi⟩ := h.interpMap_eq_some.mp hp
    cases he : d.entry i with
    | empty =>
      rw [he, NodeEntry.interpMap, PMap.empty_apply] at hi
      cases hi
    | page q =>
      rw [he, NodeEntry.interpMap, PMap.insert_eq_some] at hi
      obtain ⟨_, rfl⟩ | ⟨_, hi⟩ := hi
      · exact ⟨d.layer, Nat.le_refl _, loc.layer_lt, (loc.pages_match_entry_size i q he).symm⟩
      · cases hi
    | directory d' =>
      rw [he, NodeEntry.interpMap] at hi
      obtain ⟨j, hle, hlt, hsize⟩ := ih i d' he hi
      rw [(loc.directories_are_in_next_layer i d' he).1] at hle
      rw [loc.directories_match_arch i d' he] at hlt hsize
      exact ⟨j, by omega, hlt, hsize⟩

/-- A directory accepts unmapping what it accepted to map. -/
theorem AcceptedMapping.acceptedUnmap {d : Directory} {base : Nat} {pte : PageTableEntry}
    (h : d.Inv) (ha : d.AcceptedMapping base pte) : d.AcceptedUnmap base := by
  have hpos := ha.size_pos h
  obtain ⟨hlow, hup⟩ := ha.in_bounds
  obtain ⟨i, _, hlt, hsize⟩ := ha.valid_size
  refine ⟨⟨hlow, ?_⟩, pte.frame.size, ⟨i, Nat.zero_le i, hlt, hsize⟩, ha.vaddr_aligned⟩
  change base < d.upperVaddr
  omega

/-- A directory accepts every mapping it holds. -/
theorem Inv.acceptedMapping_of_interpMap {d : Directory} (h : d.Inv) {base : Nat}
    {pte : PageTableEntry} (hp : d.interpMap base = some pte) : d.AcceptedMapping base pte where
  vaddr_aligned := h.interp_inv.vaddr_aligned base pte hp
  frame_aligned := h.interp_inv.frame_aligned base pte hp
  in_bounds := h.interp_inv.in_bounds base pte hp
  valid_size := h.interpMap_valid_size hp

/-- What an operation accepts depends on the place of a directory only. -/
theorem AcceptedMapping.congr {d d' : Directory} {base : Nat} {pte : PageTableEntry}
    (ha : d.AcceptedMapping base pte) (hlayer : d'.layer = d.layer)
    (hbase : d'.baseVaddr = d.baseVaddr) (harch : d'.arch = d.arch) :
    d'.AcceptedMapping base pte where
  vaddr_aligned := ha.vaddr_aligned
  frame_aligned := ha.frame_aligned
  in_bounds := by
    rw [upperVaddr, hbase, harch, hlayer]
    exact ha.in_bounds
  valid_size := by
    rw [harch, hlayer]
    exact ha.valid_size

private theorem AcceptedMapping.interpMap_eq_none {d : Directory} {base : Nat}
    {pte : PageTableEntry} (h : d.Inv) (ha : d.AcceptedMapping base pte)
    (hno : ¬candidateMappingOverlapsExistingVmem d.interpMap base pte) :
    d.interpMap base = none := by
  rw [Option.eq_none_iff_forall_ne_some]
  intro p hp
  apply hno
  refine ⟨base, p, hp, ?_⟩
  rw [overlap_iff (ha.size_pos h) (h.interpMap_bounds hp).1]
  have hpos := ha.size_pos h
  have hpos' := (h.interpMap_bounds hp).1
  omega

/-- Unmapping what was just mapped gives the directory back. -/
theorem Inv.unmap_mapFrame {d d' : Directory} (h : d.Inv) (harch : d.arch = x86Arch) {base : Nat}
    {pte : PageTableEntry} (ha : d.AcceptedMapping base pte) (hok : d.mapFrame base pte = .ok d') :
    d'.unmap base = .ok d := by
  obtain ⟨hno, hres⟩ := h.mapFrame_eq_ok ha hok
  have ha' := ha.congr hres.layer_eq hres.baseVaddr_eq hres.arch_eq
  have hsome : d'.interpMap base ≠ none := by
    rw [hres.interpMap_eq, PMap.insert_self]
    exact Option.some_ne_none pte
  obtain ⟨d'', hd'', hres'⟩ := hres.inv.unmap_ok (ha'.acceptedUnmap hres.inv) hsome
  rw [hd'']
  apply congrArg Except.ok
  apply hres'.inv.eq_of_interpMap_eq h
  · rw [hres'.arch_eq, hres.arch_eq, harch]
  · exact harch
  · rw [hres'.layer_eq, hres.layer_eq]
  · rw [hres'.baseVaddr_eq, hres.baseVaddr_eq]
  · rw [hres'.interpMap_eq, hres.interpMap_eq, PMap.remove_insert,
      PMap.remove_of_eq_none (ha.interpMap_eq_none h hno)]

/-- Mapping again what was just unmapped gives the directory back. -/
theorem Inv.mapFrame_unmap {d d' : Directory} (h : d.Inv) (harch : d.arch = x86Arch) {base : Nat}
    {pte : PageTableEntry} (hp : d.interpMap base = some pte) (hok : d.unmap base = .ok d') :
    d'.AcceptedMapping base pte ∧ d'.mapFrame base pte = .ok d := by
  have ha := h.acceptedMapping_of_interpMap hp
  have hres := (h.unmap_eq_ok (ha.acceptedUnmap h) hok).2
  have ha' := ha.congr hres.layer_eq hres.baseVaddr_eq hres.arch_eq
  have hno : ¬candidateMappingOverlapsExistingVmem d'.interpMap base pte := by
    rintro ⟨b, q, hq, hov⟩
    rw [hres.interpMap_eq, PMap.remove_eq_some] at hq
    rcases h.interp_inv.dont_overlap base pte b q hp hq.2 with heq | hnot
    · exact hq.1 heq.symm
    · exact hnot hov
  obtain ⟨d'', hd'', hres'⟩ := hres.inv.mapFrame_ok ha' hno
  refine ⟨ha', ?_⟩
  rw [hd'']
  apply congrArg Except.ok
  apply hres'.inv.eq_of_interpMap_eq h
  · rw [hres'.arch_eq, hres.arch_eq, harch]
  · exact harch
  · rw [hres'.layer_eq, hres.layer_eq]
  · rw [hres'.baseVaddr_eq, hres.baseVaddr_eq]
  · rw [hres'.interpMap_eq, hres.interpMap_eq]
    funext va
    by_cases hva : va = base
    · rw [hva, PMap.insert_self, hp]
    · rw [PMap.insert_of_ne _ _ hva, PMap.remove_of_ne _ hva]

/-! ## Sequences of operations -/

/-- The operations on directories with their arguments. -/
inductive Op where
  | mapFrame (base : Nat) (pte : PageTableEntry)
  | unmap (base : Nat)

/-- An accepted operation that succeeds. -/
inductive Op.Step : Directory → Op → Directory → Prop where
  | mapFrame {d d' : Directory} {base : Nat} {pte : PageTableEntry}
      (ha : d.AcceptedMapping base pte) (hok : d.mapFrame base pte = .ok d') :
      Step d (.mapFrame base pte) d'
  | unmap {d d' : Directory} {base : Nat} (ha : d.AcceptedUnmap base)
      (hok : d.unmap base = .ok d') : Step d (.unmap base) d'

/-- Sequences of successful operations on x86-64 directories. -/
def machine : Machine Directory Op where
  init d := d.Inv ∧ d.arch = x86Arch
  step := Op.Step

/-- A directory with the invariant that stands where `d` stands. -/
structure SamePlace (d d' : Directory) : Prop where
  inv : d'.Inv
  arch_eq : d'.arch = d.arch
  layer_eq : d'.layer = d.layer
  baseVaddr_eq : d'.baseVaddr = d.baseVaddr

private theorem SamePlace.step {d₀ d d' : Directory} {op : Op} (h : d₀.SamePlace d)
    (hstep : Op.Step d op d') : d₀.SamePlace d' := by
  cases hstep with
  | mapFrame ha hok =>
    have hres := (h.inv.mapFrame_eq_ok ha hok).2
    exact ⟨hres.inv, hres.arch_eq.trans h.arch_eq, hres.layer_eq.trans h.layer_eq,
      hres.baseVaddr_eq.trans h.baseVaddr_eq⟩
  | unmap ha hok =>
    have hres := (h.inv.unmap_eq_ok ha hok).2
    exact ⟨hres.inv, hres.arch_eq.trans h.arch_eq, hres.layer_eq.trans h.layer_eq,
      hres.baseVaddr_eq.trans h.baseVaddr_eq⟩

/-- Successful operations keep the invariant and the place of a directory. -/
theorem SamePlace.of_run {d d' : Directory} {ops : List Op} (h : d.Inv)
    (hrun : machine.Run d ops d') : d.SamePlace d' := by
  apply hrun.invariant (fun _ _ _ hs hstep ↦ SamePlace.step hs hstep)
  exact ⟨h, rfl, rfl, rfl⟩

/-! ## Main results -/

/-- A root directory without entries. -/
def x86Root : Directory where
  entries := List.replicate x86NumEntries .empty
  layer := 0
  baseVaddr := 0
  arch := x86Arch
  flags := permissiveFlags

private theorem x86Root_inv : x86Root.Inv := by
  have hwf : x86Root.WellFormed := {
    arch_inv := x86Arch_inv
    layer_lt := by decide
    base_aligned := Nat.zero_mod _
    entries_length := List.length_replicate
    flags_eq := rfl }
  apply hwf.inv_of_empty
  rw [hwf.empty_iff]
  exact Table.getD_replicate_default NodeEntry.empty x86NumEntries

/-- Canonical form: on x86-64, directories at one place with equal flat maps are equal as
trees, and so are the trees any two sequences of successful operations end in. -/
theorem eq_iff_interp_map_eq (d₁ d₂ : Directory) (h₁ : d₁.Inv) (h₂ : d₂.Inv)
    (harch₁ : d₁.arch = x86Arch) (harch₂ : d₂.arch = x86Arch) (hlayer : d₁.layer = d₂.layer)
    (hbase : d₁.baseVaddr = d₂.baseVaddr) :
    (d₁.interp.map = d₂.interp.map ↔ d₁ = d₂) ∧
    ∀ ops₁ ops₂ e₁ e₂, machine.Run d₁ ops₁ e₁ → machine.Run d₂ ops₂ e₂ →
      e₁.interp.map = e₂.interp.map → e₁ = e₂ := by
  constructor
  · constructor
    · exact h₁.eq_of_interpMap_eq h₂ harch₁ harch₂ hlayer hbase
    · rintro rfl
      rfl
  · intro ops₁ ops₂ e₁ e₂ hrun₁ hrun₂ hmap
    have he₁ := SamePlace.of_run h₁ hrun₁
    have he₂ := SamePlace.of_run h₂ hrun₂
    apply he₁.inv.eq_of_interpMap_eq he₂.inv
    · rw [he₁.arch_eq, harch₁]
    · rw [he₂.arch_eq, harch₂]
    · rw [he₁.layer_eq, he₂.layer_eq, hlayer]
    · rw [he₁.baseVaddr_eq, he₂.baseVaddr_eq, hbase]
    · exact hmap

/-- A 4 KiB page. -/
def rootPage : PageTableEntry := ⟨⟨0x7000, l3EntrySize⟩, ⟨true, false, true⟩⟩

private theorem rootPage_accepted : x86Root.AcceptedMapping 0x3000 rootPage where
  vaddr_aligned := by decide
  frame_aligned := by decide
  in_bounds := by decide
  valid_size := ⟨3, by decide, by decide, rfl⟩

/-- The root directory with the page mapped. -/
theorem exists_mapFrame_rootPage :
    ∃ d, x86Root.mapFrame 0x3000 rootPage = .ok d ∧ x86Root.MapResult 0x3000 rootPage d := by
  apply x86Root_inv.mapFrame_ok rootPage_accepted
  rintro ⟨b, p, hp, _⟩
  have hempty : x86Root.Empty := by
    rw [x86Root_inv.loc.empty_iff]
    exact Table.getD_replicate_default NodeEntry.empty x86NumEntries
  rw [x86Root_inv.interpMap_of_empty hempty, PMap.empty_apply] at hp
  cases hp

/-- Mapping a page in an empty root. -/
theorem eq_iff_interp_map_eq_root :
    ∃ d, x86Root.mapFrame 0x3000 rootPage = .ok d ∧
    (d.interp.map = x86Root.interp.map ↔ d = x86Root) ∧
    ∀ ops₁ ops₂ e₁ e₂, machine.Run d ops₁ e₁ → machine.Run x86Root ops₂ e₂ →
      e₁.interp.map = e₂.interp.map → e₁ = e₂ := by
  obtain ⟨d, hd, hres⟩ := exists_mapFrame_rootPage
  exact ⟨d, hd, eq_iff_interp_map_eq d x86Root hres.inv x86Root_inv hres.arch_eq rfl hres.layer_eq
    hres.baseVaddr_eq⟩

/-- Mapping and unmapping are inverse on x86-64 directories, with all their subdirectories:
unmapping what was mapped and mapping what was unmapped gives the directory back. -/
theorem mapFrame_unmap_inverse (d : Directory) (h : d.Inv) (harch : d.arch = x86Arch) :
    (∀ base pte d', d.AcceptedMapping base pte → d.mapFrame base pte = .ok d' →
      d'.AcceptedUnmap base ∧ d'.unmap base = .ok d) ∧
    (∀ base pte d', d.interp.map base = some pte → d.unmap base = .ok d' →
      d'.AcceptedMapping base pte ∧ d'.mapFrame base pte = .ok d) := by
  constructor
  · intro base pte d' ha hok
    have hres := (h.mapFrame_eq_ok ha hok).2
    have ha' := ha.congr hres.layer_eq hres.baseVaddr_eq hres.arch_eq
    exact ⟨ha'.acceptedUnmap hres.inv, h.unmap_mapFrame harch ha hok⟩
  · exact fun base pte d' hp hok ↦ h.mapFrame_unmap harch hp hok

/-- A root in which one page is mapped. -/
theorem mapFrame_unmap_inverse_mapped :
    ∃ d, x86Root.mapFrame 0x3000 rootPage = .ok d ∧ d.interp.map 0x3000 = some rootPage ∧
      (∀ base pte d', d.AcceptedMapping base pte → d.mapFrame base pte = .ok d' →
        d'.AcceptedUnmap base ∧ d'.unmap base = .ok d) ∧
      (∀ base pte d', d.interp.map base = some pte → d.unmap base = .ok d' →
        d'.AcceptedMapping base pte ∧ d'.mapFrame base pte = .ok d) := by
  obtain ⟨d, hd, hres⟩ := exists_mapFrame_rootPage
  refine ⟨d, hd, ?_, mapFrame_unmap_inverse d hres.inv hres.arch_eq⟩
  rw [interp_map, hres.interpMap_eq, PMap.insert_self]

end Directory

end NrKernel.PageTable
