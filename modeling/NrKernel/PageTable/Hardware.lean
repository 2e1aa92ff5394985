import NrKernel.Lib.WordBits
import NrKernel.PageTable.Memory

/-!
# The page table walk of the MMU

Decoding of table entries and the four-level walk over raw words (`spec_t/hardware.rs`).
The walk of an address yields at most one entry; `interpPtMem` collects the aligned base
addresses whose walk succeeds.
-/

namespace NrKernel.PageTable

open Lib Lib.WordBits PtMemory

/-! ## Masks (`spec_t/hardware.rs:120–219`) -/

/-- The present bit of an entry. -/
def maskFlagP : BitVec 64 := bit 0

/-- The bit that allows writing. -/
def maskFlagRW : BitVec 64 := bit 1

/-- The bit that allows access from user mode. -/
def maskFlagUS : BitVec 64 := bit 2

/-- The write-through bit. -/
def maskFlagPWT : BitVec 64 := bit 3

/-- The cache-disable bit. -/
def maskFlagPCD : BitVec 64 := bit 4

/-- The accessed bit. -/
def maskFlagA : BitVec 64 := bit 5

/-- The bit that forbids execution. -/
def maskFlagXD : BitVec 64 := bit 63

/-- The dirty bit of a page. -/
def maskPgFlagD : BitVec 64 := bit 6

/-- The global bit of a page. -/
def maskPgFlagG : BitVec 64 := bit 8

/-- The memory-type bit of a page, above the last layer. -/
def maskPgFlagPAT : BitVec 64 := bit 12

/-- The page-size bit on layer 1. -/
def maskL1PgFlagPS : BitVec 64 := bit 7

/-- The page-size bit on layer 2. -/
def maskL2PgFlagPS : BitVec 64 := bit 7

/-- The memory-type bit on layer 3, where pages have no size bit. -/
def maskL3PgFlagPAT : BitVec 64 := bit 7

section Masks

variable [PhyAddrWidth]

/-- The address bits of an entry, from bit 12 to the width of physical addresses. -/
def maskAddr : BitVec 64 := bitmaskInc 12 (maxPhyaddrWidth - 1)

/-- The address bits of a page on layer 1. -/
def maskL1PgAddr : BitVec 64 := bitmaskInc 30 (maxPhyaddrWidth - 1)

/-- The address bits of a page on layer 2. -/
def maskL2PgAddr : BitVec 64 := bitmaskInc 21 (maxPhyaddrWidth - 1)

/-- The address bits of a page on layer 3. -/
def maskL3PgAddr : BitVec 64 := bitmaskInc 12 (maxPhyaddrWidth - 1)

end Masks

/-! ## Entries -/

/-- Payload of `GhostPageDirectoryEntry::Directory` (`spec_t/hardware.rs:62–81`). -/
structure GhostDirectory where
  addr : Nat
  flagP : Bool
  flagRW : Bool
  flagUS : Bool
  flagPWT : Bool
  flagPCD : Bool
  flagA : Bool
  flagXD : Bool
  deriving DecidableEq

/-- Payload of `GhostPageDirectoryEntry::Page` (`spec_t/hardware.rs:82–110`). -/
structure GhostPage where
  addr : Nat
  flagP : Bool
  flagRW : Bool
  flagUS : Bool
  flagPWT : Bool
  flagPCD : Bool
  flagA : Bool
  flagD : Bool
  flagG : Bool
  flagPAT : Bool
  flagXD : Bool
  deriving DecidableEq

/-- `GhostPageDirectoryEntry` (`spec_t/hardware.rs:61–115`). An entry is `empty` when it is
not present or has a must-be-zero bit set. -/
inductive GhostPageDirectoryEntry where
  | directory (e : GhostDirectory)
  | page (e : GhostPage)
  | empty
  deriving DecidableEq

/-- `is_Directory`. -/
def GhostPageDirectoryEntry.isDirectory : GhostPageDirectoryEntry → Bool
  | .directory _ => true
  | _ => false

/-- `is_Page`. -/
def GhostPageDirectoryEntry.isPage : GhostPageDirectoryEntry → Bool
  | .page _ => true
  | _ => false

/-- A table word together with the layer of its table (`spec_t/hardware.rs:223–227`). -/
structure PageDirectoryEntry where
  entry : BitVec 64
  layer : Nat
  deriving DecidableEq

namespace PageDirectoryEntry

variable [PhyAddrWidth]

/-- `all_mb0_bits_are_zero` (`spec_t/hardware.rs:335–377`); `false` below layer 3, where the
source leaves it unspecified. -/
def allMb0BitsAreZero (e : PageDirectoryEntry) : Bool :=
  if hasFlag e.entry maskFlagP then
    if e.layer = 0 then
      -- PML4, always a directory; reserved: 51:M, 7
      e.entry &&& bitmaskInc maxPhyaddrWidth 51 == 0 && e.entry &&& bit 7 == 0
    else if e.layer = 1 then
      if hasFlag e.entry maskL1PgFlagPS then
        -- 51:M, 29:13
        e.entry &&& bitmaskInc maxPhyaddrWidth 51 == 0 && e.entry &&& bitmaskInc 13 29 == 0
      else
        e.entry &&& bitmaskInc maxPhyaddrWidth 51 == 0 && e.entry &&& bit 7 == 0
    else if e.layer = 2 then
      if hasFlag e.entry maskL2PgFlagPS then
        -- 62:M, 20:13
        e.entry &&& bitmaskInc maxPhyaddrWidth 62 == 0 && e.entry &&& bitmaskInc 13 20 == 0
      else
        e.entry &&& bitmaskInc maxPhyaddrWidth 62 == 0 && e.entry &&& bit 7 == 0
    else if e.layer = 3 then
      e.entry &&& bitmaskInc maxPhyaddrWidth 62 == 0
    else
      false
  else
    -- no bits are reserved for unused entries
    true

/-- The word as a reference to a directory (`spec_t/hardware.rs:250–261` and twice more). -/
def dirView (v : BitVec 64) : GhostDirectory where
  addr := (v &&& maskAddr).toNat
  flagP := hasFlag v maskFlagP
  flagRW := hasFlag v maskFlagRW
  flagUS := hasFlag v maskFlagUS
  flagPWT := hasFlag v maskFlagPWT
  flagPCD := hasFlag v maskFlagPCD
  flagA := hasFlag v maskFlagA
  flagXD := hasFlag v maskFlagXD

/-- The word as a mapping, with the address mask and the PAT bit of its layer
(`spec_t/hardware.rs:264–279`, `294–309`, `324–339`). -/
def pageView (v addrMask patMask : BitVec 64) : GhostPage where
  addr := (v &&& addrMask).toNat
  flagP := hasFlag v maskFlagP
  flagRW := hasFlag v maskFlagRW
  flagUS := hasFlag v maskFlagUS
  flagPWT := hasFlag v maskFlagPWT
  flagPCD := hasFlag v maskFlagPCD
  flagA := hasFlag v maskFlagA
  flagD := hasFlag v maskPgFlagD
  flagG := hasFlag v maskPgFlagG
  flagPAT := hasFlag v patMask
  flagXD := hasFlag v maskFlagXD

/-- `PageDirectoryEntry::view` (`spec_t/hardware.rs:233–333`); `empty` below layer 3, where
the source leaves it unspecified. -/
def view (e : PageDirectoryEntry) : GhostPageDirectoryEntry :=
  if e.layer ≤ 3 then
    if hasFlag e.entry maskFlagP && e.allMb0BitsAreZero then
      if e.layer = 0 then
        .directory (dirView e.entry)
      else if e.layer = 1 then
        if hasFlag e.entry maskL1PgFlagPS then
          .page (pageView e.entry maskL1PgAddr maskPgFlagPAT)
        else
          .directory (dirView e.entry)
      else if e.layer = 2 then
        if hasFlag e.entry maskL2PgFlagPS then
          .page (pageView e.entry maskL2PgAddr maskPgFlagPAT)
        else
          .directory (dirView e.entry)
      else
        .page (pageView e.entry maskL3PgAddr maskL3PgFlagPAT)
    else
      .empty
  else
    .empty

/-- Tables of the first layer hold no pages. -/
theorem view_zero_isPage (v : BitVec 64) : (view ⟨v, 0⟩).isPage = false := by
  simp only [view]
  split
  · split <;> rfl
  · rfl

end PageDirectoryEntry

/-! ## The walk -/

/-- `l0_bits!` (`spec_t/hardware.rs:384–389`). -/
def l0Bits (addr : BitVec 64) : Nat := ((addr &&& bitmaskInc 39 47) >>> 39).toNat

/-- `l1_bits!`. -/
def l1Bits (addr : BitVec 64) : Nat := ((addr &&& bitmaskInc 30 38) >>> 30).toNat

/-- `l2_bits!`. -/
def l2Bits (addr : BitVec 64) : Nat := ((addr &&& bitmaskInc 21 29) >>> 21).toNat

/-- `l3_bits!`. -/
def l3Bits (addr : BitVec 64) : Nat := ((addr &&& bitmaskInc 12 20) >>> 12).toNat

section Walk

variable {M : Type} [PtMemoryOps M] [PhyAddrWidth]

/-- `read_entry` (`spec_t/hardware.rs:412–420`). -/
def readEntry (ptMem : M) (dirAddr layer idx : Nat) : GhostPageDirectoryEntry :=
  PageDirectoryEntry.view ⟨specRead ptMem idx ⟨dirAddr, pageSize⟩, layer⟩

/-- The entry at which the MMU's walk of `addr` arrives, for an `addr` aligned to its size
(`valid_pt_walk`, `spec_t/hardware.rs:438–541`). The access rights are combined along the
translation path. -/
def ptWalk (ptMem : M) (addr : BitVec 64) : Option PageTableEntry :=
  match readEntry ptMem (cr3 ptMem).base 0 (l0Bits addr) with
  | .directory d0 =>
    match readEntry ptMem d0.addr 1 (l1Bits addr) with
    | .page p =>
      if aligned addr.toNat l1EntrySize then
        some {
          frame := ⟨p.addr, l1EntrySize⟩
          flags := {
            isWritable := d0.flagRW && p.flagRW
            isSupervisor := !d0.flagUS || !p.flagUS
            disableExecute := d0.flagXD || p.flagXD } }
      else none
    | .directory d1 =>
      match readEntry ptMem d1.addr 2 (l2Bits addr) with
      | .page p =>
        if aligned addr.toNat l2EntrySize then
          some {
            frame := ⟨p.addr, l2EntrySize⟩
            flags := {
              isWritable := d0.flagRW && d1.flagRW && p.flagRW
              isSupervisor := !d0.flagUS || !d1.flagUS || !p.flagUS
              disableExecute := d0.flagXD || d1.flagXD || p.flagXD } }
        else none
      | .directory d2 =>
        match readEntry ptMem d2.addr 3 (l3Bits addr) with
        | .page p =>
          if aligned addr.toNat l3EntrySize then
            some {
              frame := ⟨p.addr, l3EntrySize⟩
              flags := {
                isWritable := d0.flagRW && d1.flagRW && d2.flagRW && p.flagRW
                isSupervisor := !d0.flagUS || !d1.flagUS || !d2.flagUS || !p.flagUS
                disableExecute := d0.flagXD || d1.flagXD || d2.flagXD || p.flagXD } }
          else none
        | .directory _ => none
        | .empty => none
      | .empty => none
    | .empty => none
  | _ => none

/-- `valid_pt_walk` (`spec_t/hardware.rs:438–541`). -/
def validPtWalk (ptMem : M) (addr : BitVec 64) (pte : PageTableEntry) : Prop :=
  ptWalk ptMem addr = some pte

/-- `interp_pt_mem` (`spec_t/hardware.rs:549–559`): the mappable addresses with a valid walk,
each with the entry its walk arrives at. -/
def interpPtMem (ptMem : M) : Mappings :=
  fun addr ↦ if addr < maxBase then ptWalk ptMem (BitVec.ofNat 64 addr) else none

/-- The map the MMU computes holds exactly the valid walks of mappable addresses. -/
theorem interpPtMem_eq_some (ptMem : M) (addr : Nat) (pte : PageTableEntry) :
    interpPtMem ptMem addr = some pte ↔
      addr < maxBase ∧ validPtWalk ptMem (BitVec.ofNat 64 addr) pte := by
  unfold interpPtMem validPtWalk
  by_cases h : addr < maxBase
  · simp [h]
  · simp [h]

end Walk

end NrKernel.PageTable
