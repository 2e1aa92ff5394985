import NrKernel.PageTable.Entry

/-!
# Encoding and decoding of table words

Every word built by `new_entry`, `new_page_entry` and `new_dir_entry` decodes to the requested
kind, address and flags, and the executable accessors read what the decoder sees
(`impl_u/l2_impl.rs:317–498` against `spec_t/hardware.rs:229–377`), for every physical address
width.
-/

namespace NrKernel.PageTable

open Lib Lib.WordBits PtMemory

namespace PageDirectoryEntry

/-- The alignment of the addresses an entry of a kind and layer refers to. -/
def kindAlignment (pg : Bool) (layer : Nat) : Nat :=
  if pg then x86Arch.entrySize layer else pageSize

/-- The view of an entry with the requested kind, address and flags. -/
def requestedView (pg : Bool) (addr : Nat)
    (isWritable isSupervisor isWritethrough disableCache disableExecute : Bool) :
    GhostPageDirectoryEntry :=
  if pg then
    .page {
      addr := addr
      flagP := true
      flagRW := isWritable
      flagUS := !isSupervisor
      flagPWT := isWritethrough
      flagPCD := disableCache
      flagA := false
      flagD := false
      flagG := false
      flagPAT := false
      flagXD := disableExecute }
  else
    .directory {
      addr := addr
      flagP := true
      flagRW := isWritable
      flagUS := !isSupervisor
      flagPWT := isWritethrough
      flagPCD := disableCache
      flagA := false
      flagXD := disableExecute }

private theorem requestedView_ne_empty (pg : Bool) (addr : Nat) (w s wt dc xd : Bool) :
    requestedView pg addr w s wt dc xd ≠ .empty := by
  cases pg with
  | false => simp [requestedView]
  | true => simp [requestedView]

section Decoding

variable [PhyAddrWidth]

/-- The executable accessors read what the MMU sees of an entry that is present. -/
structure AccessorsAgree (e : PageDirectoryEntry) : Prop where
  isMapping_eq : e.isMapping = true ↔ e.view ≠ .empty
  isPage_eq : e.isPage e.layer = e.view.isPage
  isDir_eq : e.isDir e.layer = e.view.isDirectory
  page : ∀ p, e.view = .page p →
    e.address.toNat = p.addr ∧ e.flags = ⟨p.flagRW, !p.flagUS, p.flagXD⟩
  directory : ∀ x, e.view = .directory x →
    e.address.toNat = x.addr ∧ e.flags = ⟨x.flagRW, !x.flagUS, x.flagXD⟩

private theorem eq_dirView_of_view {e : PageDirectoryEntry} {x : GhostDirectory}
    (h : e.view = .directory x) : x = dirView e.entry := by
  unfold view at h
  split_ifs at h <;> simp_all

/-- On every present word that meets the invariant the accessors agree with the view. -/
theorem accessorsAgree {e : PageDirectoryEntry} (hlayer : e.layer ≤ 3)
    (hmb0 : e.allMb0BitsAreZero = true) (hpat : e.HpPatIsZero) (hne : e.view ≠ .empty) :
    e.AccessorsAgree := by
  have hmap : e.isMapping = true := by
    by_contra hno
    apply hne
    apply view_of_not_mapping
    exact Bool.eq_false_of_not_eq_true hno
  cases hdir : e.isDir e.layer with
  | true =>
    obtain ⟨x, hview, haddr⟩ := view_of_dir hlayer hmb0 hmap hdir
    have hpage : e.isPage e.layer = false := by simpa [isDir] using hdir
    exact {
      isMapping_eq := by simp [hmap, hne]
      isPage_eq := by rw [hpage, hview]; rfl
      isDir_eq := by rw [hdir, hview]; rfl
      page := by simp [hview]
      directory := by
        intro y hy
        rw [hview, GhostPageDirectoryEntry.directory.injEq] at hy
        rw [← hy, haddr, eq_dirView_of_view hview]
        exact ⟨rfl, rfl⟩ }
  | false =>
    obtain ⟨p, hview, haddr, hflags⟩ := view_of_page hlayer hmb0 hpat hmap hdir
    have hpage : e.isPage e.layer = true := by simpa [isDir] using hdir
    exact {
      isMapping_eq := by simp [hmap, hne]
      isPage_eq := by rw [hpage, hview]; rfl
      isDir_eq := by rw [hdir, hview]; rfl
      page := by
        intro q hq
        rw [hview, GhostPageDirectoryEntry.page.injEq] at hq
        rw [← hq]
        exact ⟨haddr.symm, hflags.symm⟩
      directory := by simp [hview] }

/-- A word of the given layer that stands for the given view: it decodes to the view, its
must-be-zero bits are zero, and the accessors agree. -/
structure Encodes (e : PageDirectoryEntry) (layer : Nat) (v : GhostPageDirectoryEntry) :
    Prop where
  layer_eq : e.layer = layer
  view_eq : e.view = v
  mb0_bits_are_zero : e.allMb0BitsAreZero = true
  accessors_agree : e.AccessorsAgree

-- Aligned physical addresses have no bits outside the address field of their kind
-- (`impl_u/l2_impl.rs:41–84`).
private theorem addrBits_of_aligned {pg : Bool} {layer : Nat} {address : BitVec 64}
    (hkind : KindLegal pg layer) (hle : address.toNat ≤ maxPhyaddr)
    (hal : aligned address.toNat (kindAlignment pg layer)) :
    AddrBits (addrLow pg layer) address := by
  have halign : kindAlignment pg layer = 2 ^ addrLow pg layer := by
    obtain ⟨hle3, hpos⟩ := hkind
    cases pg with
    | false => rfl
    | true =>
      have hcases : layer = 1 ∨ layer = 2 ∨ layer = 3 := by
        simp only [if_true] at hpos
        omega
      rcases hcases with rfl | rfl | rfl <;> decide
  rw [halign] at hal
  have hbits := addrBits_ofNat hle hal
  rwa [BitVec.ofNat_toNat, BitVec.setWidth_eq] at hbits

/-- `new_entry` decodes to exactly what was requested. -/
theorem newEntry_encodes {layer : Nat} {address : BitVec 64} {pg : Bool} (w s wt dc xd : Bool)
    (hkind : KindLegal pg layer) (hle : address.toNat ≤ maxPhyaddr)
    (hal : aligned address.toNat (kindAlignment pg layer)) :
    (newEntry layer address pg w s wt dc xd).Encodes layer
      (requestedView pg address.toNat w s wt dc xd) := by
  have hbits := addrBits_of_aligned hkind hle hal
  have hview : (newEntry layer address pg w s wt dc xd).view =
      requestedView pg address.toNat w s wt dc xd := by
    obtain ⟨hle3, hpos⟩ := hkind
    cases pg with
    | false => exact newEntry_view_directory (by simpa using hpos) hbits
    | true => exact newEntry_view_page (by simpa using hpos) hle3 hbits
  have hpat : (newEntry layer address pg w s wt dc xd).HpPatIsZero := by
    apply newEntry_hpPatIsZero hbits
    intro hpage
    rw [hview] at hpage
    cases pg with
    | false => cases hpage
    | true => rfl
  exact {
    layer_eq := rfl
    view_eq := hview
    mb0_bits_are_zero := newEntry_mb0 hkind hbits
    accessors_agree := by
      apply accessorsAgree hkind.1 (newEntry_mb0 hkind hbits) hpat
      rw [hview]
      exact requestedView_ne_empty pg address.toNat w s wt dc xd }

end Decoding

/-! ## Main result -/

/-- Encoding round-trips: for every physical address width, every legal kind and layer, every
aligned physical address and all flags, the built word decodes to exactly the requested view,
with all must-be-zero bits zero, and the accessors agree with the view. -/
theorem new_entries_roundTrip [PhyAddrWidth] :
    (∀ layer address pg w s wt dc xd, KindLegal pg layer → address.toNat ≤ maxPhyaddr →
      aligned address.toNat (kindAlignment pg layer) →
      (newEntry layer address pg w s wt dc xd).Encodes layer
        (requestedView pg address.toNat w s wt dc xd)) ∧
    (∀ layer pte, KindLegal true layer → pte.frame.base ≤ maxPhyaddr →
      aligned pte.frame.base (kindAlignment true layer) →
      (newPageEntry layer pte).Encodes layer
        (requestedView true pte.frame.base pte.flags.isWritable pte.flags.isSupervisor false false
          pte.flags.disableExecute)) ∧
    (∀ layer address, KindLegal false layer → address.toNat ≤ maxPhyaddr →
      aligned address.toNat (kindAlignment false layer) →
      (newDirEntry layer address).Encodes layer
        (requestedView false address.toNat true false false false false)) := by
  refine ⟨?_, ?_, ?_⟩
  · intro layer address pg w s wt dc xd hkind hle hal
    exact newEntry_encodes w s wt dc xd hkind hle hal
  · intro layer pte hkind hle hal
    have htoNat := toNat_ofNat_of_le hle
    have h := newEntry_encodes pte.flags.isWritable pte.flags.isSupervisor false false
      pte.flags.disableExecute hkind (by rw [htoNat]; exact hle) (by rw [htoNat]; exact hal)
    rw [htoNat] at h
    exact h
  · intro layer address hkind hle hal
    exact newEntry_encodes true false false false false hkind hle hal

attribute [local instance] widePhyAddr in
/-- The word of a huge page, and what it decodes to. -/
theorem new_entries_roundTrip_hugePage :
    (newEntry 1 0x40000000#64 true true false false false true).Encodes 1
      (requestedView true 0x40000000 true false false false true) :=
  new_entries_roundTrip.1 1 0x40000000#64 true true false false false true
    ⟨by decide, by decide⟩ (by decide) (by decide)

end PageDirectoryEntry

end NrKernel.PageTable
