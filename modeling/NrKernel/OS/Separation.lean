import NrKernel.Lib.Exclusive
import NrKernel.OS.HighLevel

/-!
# Separation of mappings and requests

Mappings and the requests of threads hold frames of physical memory and regions of virtual
memory. No two hold overlapping ones, and every way in which a sound step changes mappings
and requests keeps it so: both the high-level machine and the OS rest on these lemmas.
-/

namespace NrKernel.OS

open Lib PageTable HlSpec

/-- What holds an entry: a mapping, or a thread with a request in flight. -/
inductive Holder where
  | mapping (base : Nat)
  | thread (threadId : Nat)
  deriving DecidableEq

namespace AbstractArguments

/-- The entry a request holds: the one to be mapped, or the one that was removed. -/
def entry? : AbstractArguments → Option (Nat × PageTableEntry)
  | map vaddr pte => some (vaddr, pte)
  | unmap vaddr pte => pte.map (vaddr, ·)
  | empty => none

/-- The entry a request removed from the mappings. -/
def removed? : AbstractArguments → Option (Nat × PageTableEntry)
  | unmap vaddr pte => pte.map (vaddr, ·)
  | _ => none

/-- The virtual region a request is about, of size zero where nothing was mapped. -/
def region? : AbstractArguments → Option MemRegion
  | map vaddr pte => some ⟨vaddr, pte.frame.size⟩
  | unmap vaddr pte => some ⟨vaddr, sizeOf? pte⟩
  | empty => none

/-- Removed entries are held. -/
theorem entry?_of_removed? {a : AbstractArguments} {e : Nat × PageTableEntry}
    (h : a.removed? = some e) : a.entry? = some e := by
  cases a with
  | unmap => exact h
  | _ => cases h

/-- The region of a request whose entry was removed is where that entry was. -/
theorem region?_of_removed? {a : AbstractArguments} {e : Nat × PageTableEntry}
    (h : a.removed? = some e) : a.region? = some ⟨e.1, e.2.frame.size⟩ := by
  cases a with
  | unmap vaddr pte =>
    obtain ⟨p, rfl, rfl⟩ := Option.map_eq_some_iff.mp h
    rfl
  | _ => cases h

end AbstractArguments

open AbstractArguments

/-- The entries held by the mappings, and by the threads as `held?` reads their requests. -/
def holdings (held? : AbstractArguments → Option (Nat × PageTableEntry)) (mappings : Mappings)
    (threads : PMap Nat AbstractArguments) : PMap Holder (Nat × PageTableEntry)
  | .mapping base => (mappings base).map (base, ·)
  | .thread id => (threads id).bind held?

/-- The regions of the requests in flight. -/
def inflightRegions (threads : PMap Nat AbstractArguments) : PMap Nat MemRegion :=
  fun id ↦ (threads id).bind region?

/-- Two entries whose frames overlap. -/
def FrameConflict (e₁ e₂ : Nat × PageTableEntry) : Prop := overlap e₁.2.frame e₂.2.frame

/-- The virtual region an entry covers. -/
def regionOf (e : Nat × PageTableEntry) : MemRegion := ⟨e.1, e.2.frame.size⟩

/-- Two entries whose virtual regions overlap. -/
def RegionConflict (e₁ e₂ : Nat × PageTableEntry) : Prop := overlap (regionOf e₁) (regionOf e₂)

/-- What `step_Map_enabled` checks of a mapping: a page size, to which the address and the
frame are aligned. -/
structure IsPage (e : Nat × PageTableEntry) : Prop where
  size : e.2.frame.size = l3EntrySize ∨ e.2.frame.size = l2EntrySize ∨
    e.2.frame.size = l1EntrySize
  vaddr_aligned : aligned e.1 e.2.frame.size
  frame_aligned : aligned e.2.frame.base e.2.frame.size

/-- What a map request checks makes its entry a page. -/
theorem HlSpec.StepMapEnabled.isPage [PhyAddrWidth] {vaddr : Nat} {pte : PageTableEntry}
    (h : HlSpec.StepMapEnabled vaddr pte) : IsPage (vaddr, pte) :=
  ⟨h.size, h.vaddr_aligned, h.frame_aligned⟩

/-- No two mappings or requests hold overlapping frames, no two of the entries that are or
were mapped cover a common address, and no two requests are about overlapping regions. -/
structure Separated (mappings : Mappings) (threads : PMap Nat AbstractArguments) : Prop where
  frames : Exclusive FrameConflict (holdings entry? mappings threads)
  installed : Exclusive RegionConflict (holdings removed? mappings threads)
  inflight : Exclusive overlap (inflightRegions threads)
  pages : ∀ o e, holdings entry? mappings threads o = some e → IsPage e

private theorem FrameConflict.symm (e₁ e₂ : Nat × PageTableEntry) (h : FrameConflict e₁ e₂) :
    FrameConflict e₂ e₁ :=
  (overlap_comm _ _).mp h

private theorem RegionConflict.symm (e₁ e₂ : Nat × PageTableEntry) (h : RegionConflict e₁ e₂) :
    RegionConflict e₂ e₁ :=
  (overlap_comm _ _).mp h

/-- Regions with one base overlap, whatever their sizes. -/
theorem overlap_of_base_eq {r₁ r₂ : MemRegion} (h : r₁.base = r₂.base) : overlap r₁ r₂ := by
  unfold overlap
  rw [if_pos h.le]
  exact .inl h

/-! ## How holdings change -/

section Holdings

variable {held? : AbstractArguments → Option (Nat × PageTableEntry)} {mappings : Mappings}
  {threads : PMap Nat AbstractArguments}

/-- A mapping holds its own entry. -/
theorem holdings_mapping {base : Nat} {pte : PageTableEntry} (h : mappings base = some pte) :
    holdings held? mappings threads (.mapping base) = some (base, pte) := by
  rw [holdings, h, Option.map_some]

/-- A thread holds what `held?` reads in its request. -/
theorem holdings_thread {id : Nat} {a : AbstractArguments} (h : threads id = some a) :
    holdings held? mappings threads (.thread id) = held? a := by
  rw [holdings, h, Option.bind_some]

/-- A thread's new request holds what `held?` reads in it. -/
theorem holdings_insert_thread {id : Nat} {a : AbstractArguments} {e : Nat × PageTableEntry}
    (h : held? a = some e) :
    holdings held? mappings (threads.insert id a) =
      (holdings held? mappings threads).insert (.thread id) e := by
  ext o : 1
  cases o with
  | mapping base => rfl
  | thread id' =>
    by_cases hid : id' = id
    · rw [hid, PMap.insert_self, holdings_thread (PMap.insert_self threads id a), h]
    · have hne : Holder.thread id' ≠ .thread id := fun heq ↦ hid (Holder.thread.inj heq)
      rw [PMap.insert_of_ne _ _ hne]
      simp only [holdings, PMap.insert_of_ne threads a hid]

/-- A thread gives up what it holds with a request in which `held?` reads nothing. -/
theorem holdings_insert_thread_none {id : Nat} {a : AbstractArguments} (h : held? a = none) :
    holdings held? mappings (threads.insert id a) =
      (holdings held? mappings threads).remove (.thread id) := by
  ext o : 1
  cases o with
  | mapping base => rfl
  | thread id' =>
    by_cases hid : id' = id
    · rw [hid, PMap.remove_self, holdings_thread (PMap.insert_self threads id a), h]
    · have hne : Holder.thread id' ≠ .thread id := fun heq ↦ hid (Holder.thread.inj heq)
      rw [PMap.remove_of_ne _ hne]
      simp only [holdings, PMap.insert_of_ne threads a hid]

private theorem holdings_insert_mapping (base : Nat) (pte : PageTableEntry) :
    holdings held? (mappings.insert base pte) threads =
      (holdings held? mappings threads).insert (.mapping base) (base, pte) := by
  ext o : 1
  cases o with
  | thread id => rfl
  | mapping b =>
    by_cases hb : b = base
    · rw [hb, PMap.insert_self, holdings_mapping (PMap.insert_self mappings base pte)]
    · have hne : Holder.mapping b ≠ .mapping base := fun heq ↦ hb (Holder.mapping.inj heq)
      rw [PMap.insert_of_ne _ _ hne]
      simp only [holdings, PMap.insert_of_ne mappings pte hb]

private theorem holdings_remove_mapping (base : Nat) :
    holdings held? (mappings.remove base) threads =
      (holdings held? mappings threads).remove (.mapping base) := by
  ext o : 1
  cases o with
  | thread id => rfl
  | mapping b =>
    by_cases hb : b = base
    · simp [hb, holdings]
    · have hne : Holder.mapping b ≠ .mapping base := fun heq ↦ hb (Holder.mapping.inj heq)
      rw [PMap.remove_of_ne _ hne]
      simp only [holdings, PMap.remove_of_ne mappings hb]

/-- What a mapping holds is its entry. -/
theorem holdings_mapping_eq_some {base : Nat} {e : Nat × PageTableEntry}
    (h : holdings held? mappings threads (.mapping base) = some e) :
    e.1 = base ∧ mappings base = some e.2 := by
  obtain ⟨p, hp, rfl⟩ := Option.map_eq_some_iff.mp h
  exact ⟨rfl, hp⟩

/-- What a thread holds is read in its request. -/
theorem holdings_thread_eq_some {id : Nat} {e : Nat × PageTableEntry}
    (h : holdings held? mappings threads (.thread id) = some e) :
    ∃ a, threads id = some a ∧ held? a = some e :=
  Option.bind_eq_some_iff.mp h

private theorem inflightRegions_eq_some {id : Nat} {r : MemRegion}
    (h : inflightRegions threads id = some r) :
    ∃ a, threads id = some a ∧ region? a = some r :=
  Option.bind_eq_some_iff.mp h

/-- The region of a request in flight. -/
theorem inflightRegions_of_eq {id : Nat} {a : AbstractArguments} (h : threads id = some a) :
    inflightRegions threads id = region? a := by
  rw [inflightRegions, h, Option.bind_some]

private theorem inflightRegions_insert {id : Nat} {a : AbstractArguments} {r : MemRegion}
    (h : region? a = some r) :
    inflightRegions (threads.insert id a) = (inflightRegions threads).insert id r := by
  ext id' : 1
  by_cases hid : id' = id
  · rw [hid, PMap.insert_self, inflightRegions_of_eq (PMap.insert_self threads id a), h]
  · rw [PMap.insert_of_ne _ _ hid]
    simp only [inflightRegions, PMap.insert_of_ne threads a hid]

private theorem inflightRegions_insert_empty (id : Nat) :
    inflightRegions (threads.insert id .empty) = (inflightRegions threads).remove id := by
  ext id' : 1
  by_cases hid : id' = id
  · rw [hid, PMap.remove_self, inflightRegions_of_eq (PMap.insert_self threads id _), region?]
  · rw [PMap.remove_of_ne _ hid]
    simp only [inflightRegions, PMap.insert_of_ne threads _ hid]

end Holdings

/-! ## Requests that overlap nothing in flight -/

section Overlap

variable {threads : PMap Nat AbstractArguments}

/-- A region that overlaps no request in flight overlaps no region of one. -/
theorem not_overlap_inflight {base size : Nat}
    (h : ¬candidateMappingOverlapsInflightVmem threads.values base size) {id : Nat}
    {r : MemRegion} (hr : inflightRegions threads id = some r) : ¬overlap ⟨base, size⟩ r := by
  intro hov
  obtain ⟨a, ha, hregion⟩ := inflightRegions_eq_some hr
  refine h ⟨a, ⟨id, ha⟩, ?_⟩
  cases a with
  | empty => cases hregion
  | map vaddr pte =>
    cases hregion
    exact (overlap_comm _ _).mp hov
  | unmap vaddr pte =>
    cases hregion
    exact (overlap_comm _ _).mp hov

/-- A frame that overlaps no request in flight overlaps no frame held by one. -/
theorem not_overlap_held {pte : PageTableEntry}
    (h : ¬candidateMappingOverlapsInflightPmem threads.values pte) {id : Nat}
    {a : AbstractArguments} (ha : threads id = some a) {e : Nat × PageTableEntry}
    (he : entry? a = some e) : ¬overlap pte.frame e.2.frame := by
  intro hov
  refine h ⟨a, ⟨id, ha⟩, ?_⟩
  cases a with
  | empty => cases he
  | map vaddr p =>
    cases he
    exact hov
  | unmap vaddr p =>
    obtain ⟨q, rfl, rfl⟩ := Option.map_eq_some_iff.mp he
    exact ⟨q, rfl, hov⟩

end Overlap

/-! ## Sound steps keep mappings and requests separated -/

namespace Separated

variable {mappings : Mappings} {threads : PMap Nat AbstractArguments}

/-- Idle threads hold nothing. -/
theorem of_idle (hidle : ∀ id a, threads id = some a → a = .empty) :
    Separated PMap.empty threads := by
  have hnone : ∀ held?, held? .empty = none →
      holdings held? (PMap.empty : Mappings) threads = PMap.empty := by
    intro held? hheld
    ext o : 1
    cases o with
    | mapping base => rfl
    | thread id =>
      cases ha : threads id with
      | none => simp only [holdings, ha, Option.bind_none, PMap.empty_apply]
      | some a => rw [holdings_thread ha, hidle id a ha, hheld, PMap.empty_apply]
  have hregions : inflightRegions threads = PMap.empty := by
    ext id : 1
    cases ha : threads id with
    | none => simp only [inflightRegions, ha, Option.bind_none, PMap.empty_apply]
    | some a => rw [inflightRegions_of_eq ha, hidle id a ha, region?, PMap.empty_apply]
  constructor
  · rw [hnone entry? rfl]
    exact .empty
  · rw [hnone removed? rfl]
    exact .empty
  · rw [hregions]
    exact .empty
  · intro o e he
    rw [hnone entry? rfl] at he
    cases he

/-- A thread's request ends: it gives up what it holds. -/
theorem finish (h : Separated mappings threads) (id : Nat) :
    Separated mappings (threads.insert id .empty) := by
  constructor
  · rw [holdings_insert_thread_none rfl]
    exact h.frames.remove _
  · rw [holdings_insert_thread_none rfl]
    exact h.installed.remove _
  · rw [inflightRegions_insert_empty]
    exact h.inflight.remove id
  · intro o e he
    rw [holdings_insert_thread_none rfl] at he
    exact h.pages o e ((PMap.remove_eq_some _ _ _ _).mp he).2

/-- A sound map request takes its frame and its region. -/
theorem mapStart (h : Separated mappings threads) (id : Nat) {vaddr : Nat} {pte : PageTableEntry}
    (hpage : IsPage (vaddr, pte)) (hsound : StepMapSound mappings threads.values vaddr pte) :
    Separated mappings (threads.insert id (.map vaddr pte)) := by
  have hentry : entry? (.map vaddr pte) = some (vaddr, pte) := rfl
  constructor
  · rw [holdings_insert_thread hentry]
    apply h.frames.insert FrameConflict.symm
    intro o e hne he
    cases o with
    | mapping base =>
      exact fun hov ↦ hsound.existing_pmem ⟨base, e.2, (holdings_mapping_eq_some he).2, hov⟩
    | thread id' =>
      obtain ⟨a, ha, hae⟩ := holdings_thread_eq_some he
      exact not_overlap_held hsound.inflight_pmem ha hae
  · rw [holdings_insert_thread_none rfl]
    exact h.installed.remove _
  · rw [inflightRegions_insert (r := ⟨vaddr, pte.frame.size⟩) rfl]
    apply h.inflight.insert fun r s ↦ (overlap_comm r s).mp
    intro id' r hne hr
    exact not_overlap_inflight hsound.inflight_vmem hr
  · intro o e he
    rw [holdings_insert_thread hentry] at he
    rcases (PMap.insert_eq_some _ _ _ _ _).mp he with ⟨_, rfl⟩ | ⟨_, hold⟩
    · exact hpage
    · exact h.pages o e hold

/-- A map request that overlaps no mapping hands its entry over to the mappings. -/
theorem mapEnd (h : Separated mappings threads) {id vaddr : Nat} {pte : PageTableEntry}
    (hthread : threads id = some (.map vaddr pte))
    (hvmem : ¬candidateMappingOverlapsExistingVmem mappings vaddr pte) :
    Separated (mappings.insert vaddr pte) (threads.insert id .empty) := by
  have hholds : holdings entry? mappings threads (.thread id) = some (vaddr, pte) :=
    holdings_thread hthread
  constructor
  · rw [holdings_insert_mapping, holdings_insert_thread_none rfl]
    exact h.frames.transfer FrameConflict.symm hholds
  · rw [holdings_insert_mapping, holdings_insert_thread_none rfl]
    apply (h.installed.remove _).insert RegionConflict.symm
    intro o e hne he
    obtain ⟨ho, he⟩ := (PMap.remove_eq_some _ _ _ _).mp he
    cases o with
    | mapping base =>
      obtain ⟨hbase, hmap⟩ := holdings_mapping_eq_some he
      exact fun hov ↦ hvmem ⟨e.1, e.2, hbase ▸ hmap, hov⟩
    | thread id' =>
      -- an entry being unmapped is where its request is, away from the map request
      obtain ⟨a, ha, hrem⟩ := holdings_thread_eq_some he
      have hid : id ≠ id' := fun heq ↦ ho (congrArg Holder.thread heq.symm)
      apply h.inflight id id' _ _ hid (inflightRegions_of_eq hthread)
      rw [inflightRegions_of_eq ha]
      exact region?_of_removed? hrem
  · rw [inflightRegions_insert_empty]
    exact h.inflight.remove id
  · intro o e he
    rw [holdings_insert_mapping, holdings_insert_thread_none rfl] at he
    rcases (PMap.insert_eq_some _ _ _ _ _).mp he with ⟨_, rfl⟩ | ⟨_, hold⟩
    · exact h.pages _ _ hholds
    · exact h.pages o e ((PMap.remove_eq_some _ _ _ _).mp hold).2

/-- A sound unmap request of a mapping takes its entry over from the mappings. -/
theorem unmapStart (h : Separated mappings threads) (id : Nat) {vaddr : Nat}
    {pte : PageTableEntry} (hmap : mappings vaddr = some pte)
    (hsound : stepUnmapSound threads.values vaddr pte.frame.size) :
    Separated (mappings.remove vaddr) (threads.insert id (.unmap vaddr (some pte))) := by
  have hentry : entry? (.unmap vaddr (some pte)) = some (vaddr, pte) := rfl
  have hremoved : removed? (.unmap vaddr (some pte)) = some (vaddr, pte) := rfl
  have hregion : region? (.unmap vaddr (some pte)) = some ⟨vaddr, pte.frame.size⟩ := rfl
  constructor
  · rw [holdings_insert_thread hentry, holdings_remove_mapping]
    exact h.frames.transfer FrameConflict.symm (holdings_mapping hmap)
  · rw [holdings_insert_thread hremoved, holdings_remove_mapping]
    exact h.installed.transfer RegionConflict.symm (holdings_mapping hmap)
  · rw [inflightRegions_insert hregion]
    apply h.inflight.insert fun r s ↦ (overlap_comm r s).mp
    intro id' r hne hr
    exact not_overlap_inflight hsound hr
  · intro o e he
    rw [holdings_insert_thread hentry, holdings_remove_mapping] at he
    rcases (PMap.insert_eq_some _ _ _ _ _).mp he with ⟨_, rfl⟩ | ⟨_, hold⟩
    · exact h.pages _ _ (holdings_mapping hmap)
    · exact h.pages o e ((PMap.remove_eq_some _ _ _ _).mp hold).2

/-- A sound unmap request of an address that is not mapped only takes that address. -/
theorem unmapStart_none (h : Separated mappings threads) (id : Nat) {vaddr : Nat}
    (hsound : stepUnmapSound threads.values vaddr 0) :
    Separated mappings (threads.insert id (.unmap vaddr none)) := by
  have hregion : region? (.unmap vaddr none) = some ⟨vaddr, 0⟩ := rfl
  constructor
  · rw [holdings_insert_thread_none rfl]
    exact h.frames.remove _
  · rw [holdings_insert_thread_none rfl]
    exact h.installed.remove _
  · rw [inflightRegions_insert hregion]
    apply h.inflight.insert fun r s ↦ (overlap_comm r s).mp
    intro id' r hne hr
    exact not_overlap_inflight hsound hr
  · intro o e he
    rw [holdings_insert_thread_none rfl] at he
    exact h.pages o e ((PMap.remove_eq_some _ _ _ _).mp he).2

end Separated

end NrKernel.OS
