import NrKernel.PageTable.Definitions

/-!
# Flat page table contents

The most abstract description of an address space: a map from base addresses to entries
within bounds, with the accepted requests and the effect of mapping and unmapping
(`impl_u/l0.rs`). Directory trees and table memories are interpreted into it.
-/

namespace NrKernel.PageTable

open Lib

/-- `PageTableContents` (`impl_u/l0.rs:52–57`). -/
structure PageTableContents where
  map : Mappings
  arch : Arch
  lower : Nat
  upper : Nat

namespace PageTableContents

/-- `candidate_mapping_in_bounds` (`impl_u/l0.rs:92–94`). -/
def CandidateMappingInBounds (c : PageTableContents) (base : Nat) (pte : PageTableEntry) : Prop :=
  c.lower ≤ base ∧ base + pte.frame.size ≤ c.upper

/-- `PageTableContents::inv` (`impl_u/l0.rs:60–101`). -/
structure Inv (c : PageTableContents) : Prop where
  dom_finite : c.map.dom.Finite
  arch_inv : c.arch.Inv
  valid_size : ∀ va p, c.map va = some p → c.arch.containsEntrySize p.frame.size
  vaddr_aligned : ∀ va p, c.map va = some p → aligned va p.frame.size
  frame_aligned : ∀ va p, c.map va = some p → aligned p.frame.base p.frame.size
  dont_overlap : ∀ b₁ p₁ b₂ p₂, c.map b₁ = some p₁ → c.map b₂ = some p₂ →
    b₁ = b₂ ∨ ¬overlap ⟨b₁, p₁.frame.size⟩ ⟨b₂, p₂.frame.size⟩
  in_bounds : ∀ va p, c.map va = some p → c.CandidateMappingInBounds va p

/-- `accepted_mapping` (`impl_u/l0.rs:103–108`). -/
structure AcceptedMapping (c : PageTableContents) (base : Nat) (pte : PageTableEntry) : Prop where
  vaddr_aligned : aligned base pte.frame.size
  frame_aligned : aligned pte.frame.base pte.frame.size
  in_bounds : c.CandidateMappingInBounds base pte
  valid_size : c.arch.containsEntrySize pte.frame.size

/-- `valid_mapping` (`impl_u/l0.rs:110–115`): the new region overlaps no mapped one. -/
def ValidMapping (c : PageTableContents) (base : Nat) (pte : PageTableEntry) : Prop :=
  ∀ b p, c.map b = some p → ¬overlap ⟨base, pte.frame.size⟩ ⟨b, p.frame.size⟩

open Classical in
/-- `map_frame` (`impl_u/l0.rs:118–130`), for accepted requests. -/
noncomputable def mapFrame (c : PageTableContents) (base : Nat) (pte : PageTableEntry) :
    Except PageTableContents PageTableContents :=
  if c.ValidMapping base pte then .ok { c with map := c.map.insert base pte } else .error c

/-- `accepted_resolve` (`impl_u/l0.rs:148–150`). -/
def AcceptedResolve (c : PageTableContents) (vaddr : Nat) : Prop := between vaddr c.lower c.upper

/-- A mapping covers an address when the address lies in the mapped region. -/
def Covers (c : PageTableContents) (vaddr : Nat) (r : Nat × PageTableEntry) : Prop :=
  c.map r.1 = some r.2 ∧ between vaddr r.1 (r.1 + r.2.frame.size)

open Classical in
/-- `resolve` (`impl_u/l0.rs:154–167`): a mapping that covers the address. -/
noncomputable def resolve (c : PageTableContents) (vaddr : Nat) :
    Except Unit (Nat × PageTableEntry) :=
  if h : ∃ r, c.Covers vaddr r then .ok h.choose else .error ()

/-- `accepted_unmap` (`impl_u/l0.rs:176–182`). -/
def AcceptedUnmap (c : PageTableContents) (base : Nat) : Prop :=
  between base c.lower c.upper ∧ ∃ size, c.arch.containsEntrySize size ∧ aligned base size

/-- `unmap` (`impl_u/l0.rs:185–193`). -/
def unmap (c : PageTableContents) (base : Nat) : Except PageTableContents PageTableContents :=
  if (c.map base).isSome then .ok { c with map := c.map.remove base } else .error c

end PageTableContents

end NrKernel.PageTable
