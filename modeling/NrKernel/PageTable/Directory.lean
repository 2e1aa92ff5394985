import NrKernel.Lib.Table
import NrKernel.PageTable.Contents

/-!
# Directory trees

The page table as a tree of directories (`impl_u/l1.rs`): invariant, interpretation as flat
contents, and the recursive mapping and unmapping of frames, for any architecture. The
lookup rule `Directory.Inv.interpMap_apply` says what the interpretation of a directory
holds at an address in terms of the one entry that covers it.
-/

namespace NrKernel.PageTable

open Lib

mutual

/-- `NodeEntry` (`impl_u/l1.rs:47–52`). -/
inductive NodeEntry where
  | directory (d : Directory)
  | page (pte : PageTableEntry)
  | empty

/-- `Directory` (`impl_u/l1.rs:54–60`). -/
structure Directory where
  entries : List NodeEntry
  layer : Nat
  baseVaddr : Nat
  arch : Arch
  flags : Flags

end

/-- `is_Empty`. -/
def NodeEntry.isEmpty : NodeEntry → Bool
  | .empty => true
  | _ => false

mutual

/-- The mappings of one entry, `interp_of_entry(entry).map` (`impl_u/l1.rs:195–213`). -/
def NodeEntry.interpMap (entryBase : Nat) : NodeEntry → Mappings
  | .page p => PMap.empty.insert entryBase p
  | .directory d => Directory.interpMap d
  | .empty => PMap.empty

/-- The mappings of a directory, `interp().map` (`impl_u/l1.rs:165–167`). -/
def Directory.interpMap : Directory → Mappings
  | ⟨entries, layer, baseVaddr, arch, _⟩ => interpAuxMap arch layer baseVaddr 0 entries

/-- The mappings of the entries from index `i` on, `interp_aux(i).map`
(`impl_u/l1.rs:277–301`). -/
def interpAuxMap (arch : Arch) (layer baseVaddr : Nat) : Nat → List NodeEntry → Mappings
  | _, [] => PMap.empty
  | i, e :: rest =>
    (interpAuxMap arch layer baseVaddr (i + 1) rest).unionPreferRight
      (NodeEntry.interpMap (arch.entryBase layer baseVaddr i) e)

end

private theorem NodeEntry.isEmpty_iff (e : NodeEntry) : e.isEmpty = true ↔ e = .empty := by
  cases e with
  | directory d => simp [NodeEntry.isEmpty]
  | page p => simp [NodeEntry.isEmpty]
  | empty => simp [NodeEntry.isEmpty]

namespace Directory

/-- The entry at an index, `entries[i]`; empty outside the directory. -/
def entry (d : Directory) (i : Nat) : NodeEntry := d.entries.getD i .empty

/-- `entry_size` (`impl_u/l1.rs:80–84`). -/
def entrySize (d : Directory) : Nat := d.arch.entrySize d.layer

/-- `num_entries` (`impl_u/l1.rs:86–90`). -/
def numEntries (d : Directory) : Nat := d.arch.numEntries d.layer

/-- `index_for_vaddr` (`impl_u/l1.rs:175–177`). -/
def indexForVaddr (d : Directory) (vaddr : Nat) : Nat :=
  d.arch.indexForVaddr d.layer d.baseVaddr vaddr

/-- `entry_base` (`impl_u/l1.rs:179–183`). -/
def entryBase (d : Directory) (idx : Nat) : Nat := d.arch.entryBase d.layer d.baseVaddr idx

/-- `upper_vaddr` (`impl_u/l1.rs:169–173`). -/
def upperVaddr (d : Directory) : Nat := d.arch.upperVaddr d.layer d.baseVaddr

/-- `empty` (`impl_u/l1.rs:92–96`). -/
def Empty (d : Directory) : Prop := ∀ i, i < d.numEntries → (d.entry i).isEmpty = true

/-- Emptiness can be decided. -/
instance (d : Directory) : Decidable d.Empty :=
  inferInstanceAs (Decidable (∀ i, i < d.numEntries → (d.entry i).isEmpty = true))

/-- `well_formed` (`impl_u/l1.rs:72–78`). -/
structure WellFormed (d : Directory) : Prop where
  arch_inv : d.arch.Inv
  layer_lt : d.layer < d.arch.layers.length
  base_aligned : aligned d.baseVaddr (d.entrySize * d.numEntries)
  entries_length : d.entries.length = d.numEntries
  flags_eq : d.flags = permissiveFlags

/-- What `inv` asks of the entries of one directory (`impl_u/l1.rs:98–151`). -/
structure LocalInv (d : Directory) : Prop extends WellFormed d where
  pages_match_entry_size : ∀ i p, d.entry i = .page p → p.frame.size = d.entrySize
  directories_are_in_next_layer : ∀ i d', d.entry i = .directory d' →
    d'.layer = d.layer + 1 ∧ d'.baseVaddr = d.entryBase i
  directories_match_arch : ∀ i d', d.entry i = .directory d' → d'.arch = d.arch
  directories_are_nonempty : ∀ i d', d.entry i = .directory d' → ¬d'.Empty
  frames_aligned : ∀ i p, d.entry i = .page p → aligned p.frame.base d.entrySize

/-- `Directory::inv` (`impl_u/l1.rs:153–163`); the recursive constructor argument is
`directories_obey_invariant`. -/
inductive Inv : Directory → Prop where
  | intro {d : Directory} (loc : d.LocalInv)
      (sub : ∀ i d', d.entry i = .directory d' → Inv d') : Inv d

/-- A directory satisfies its own part of the invariant. -/
theorem Inv.loc {d : Directory} (h : d.Inv) : d.LocalInv := by
  cases h with
  | intro loc sub => exact loc

/-- Subdirectories satisfy the invariant. -/
theorem Inv.sub {d d' : Directory} (h : d.Inv) {i : Nat} (he : d.entry i = .directory d') :
    d'.Inv := by
  cases h with
  | intro loc sub => exact sub i d' he

private theorem interpMap_eq (d : Directory) :
    d.interpMap = interpAuxMap d.arch d.layer d.baseVaddr 0 d.entries := by
  cases d
  rw [interpMap]

/-- What `inv` asks of entry `i`: pages of the layer's size on aligned frames, directories
of the next layer that cover the entry and are not empty. -/
def EntryInv (d : Directory) (i : Nat) : NodeEntry → Prop
  | .page p => p.frame.size = d.entrySize ∧ aligned p.frame.base d.entrySize
  | .directory d' => d'.Inv ∧ d'.layer = d.layer + 1 ∧ d'.baseVaddr = d.entryBase i ∧
      d'.arch = d.arch ∧ ¬d'.Empty
  | .empty => True

/-- The entries of a directory are as `inv` asks. -/
theorem Inv.entryInv {d : Directory} (h : d.Inv) (i : Nat) : d.EntryInv i (d.entry i) := by
  cases he : d.entry i with
  | page p => exact ⟨h.loc.pages_match_entry_size i p he, h.loc.frames_aligned i p he⟩
  | directory d' =>
    obtain ⟨hlayer, hbase⟩ := h.loc.directories_are_in_next_layer i d' he
    exact ⟨h.sub he, hlayer, hbase, h.loc.directories_match_arch i d' he,
      h.loc.directories_are_nonempty i d' he⟩
  | empty => trivial

/-- A well-formed directory satisfies the invariant when each of its entries does. -/
theorem WellFormed.inv_of_entryInv {d : Directory} (h : d.WellFormed)
    (he : ∀ i, d.EntryInv i (d.entry i)) : d.Inv := by
  have hdir : ∀ i d', d.entry i = .directory d' → d.EntryInv i (.directory d') :=
    fun i d' hi ↦ hi ▸ he i
  have hpage : ∀ i p, d.entry i = .page p → d.EntryInv i (.page p) := fun i p hi ↦ hi ▸ he i
  exact .intro
    { toWellFormed := h
      pages_match_entry_size := fun i p hi ↦ (hpage i p hi).1
      directories_are_in_next_layer := fun i d' hi ↦ ⟨(hdir i d' hi).2.1, (hdir i d' hi).2.2.1⟩
      directories_match_arch := fun i d' hi ↦ (hdir i d' hi).2.2.2.1
      directories_are_nonempty := fun i d' hi ↦ (hdir i d' hi).2.2.2.2
      frames_aligned := fun i p hi ↦ (hpage i p hi).2 }
    (fun i d' hi ↦ (hdir i d' hi).1)

/-- `interp` (`impl_u/l1.rs:165–167`). -/
def interp (d : Directory) : PageTableContents where
  map := d.interpMap
  arch := d.arch
  lower := d.baseVaddr
  upper := d.upperVaddr

/-- The mappings of a directory's contents are those of the directory. -/
@[simp] theorem interp_map (d : Directory) : d.interp.map = d.interpMap := rfl

/-- `update` (`impl_u/l1.rs:795–802`). -/
def update (d : Directory) (n : Nat) (e : NodeEntry) : Directory :=
  { d with entries := d.entries.set n e }

/-- Lookup after an update. -/
theorem entry_update (d : Directory) {n : Nat} (e : NodeEntry) (hn : n < d.entries.length)
    (i : Nat) : (d.update n e).entry i = if i = n then e else d.entry i :=
  Table.getD_set d.entries e .empty hn i

/-- Writing back the entry that is there changes nothing. -/
theorem update_entry (d : Directory) (i : Nat) : d.update i (d.entry i) = d := by
  have h : d.entries.set i (d.entry i) = d.entries := Table.set_getD d.entries .empty i
  unfold update
  rw [h]
  cases d
  rfl

/-- Only indices below the number of entries hold something. -/
theorem WellFormed.index_lt {d : Directory} (h : d.WellFormed) {i : Nat}
    (he : d.entry i ≠ .empty) : i < d.numEntries := by
  rw [← h.entries_length]
  exact Table.lt_length_of_getD_ne he

/-- A directory is empty when all its entries are. -/
theorem WellFormed.empty_iff {d : Directory} (h : d.WellFormed) :
    d.Empty ↔ ∀ i, d.entry i = .empty := by
  constructor
  · intro he i
    by_contra hne
    exact hne ((NodeEntry.isEmpty_iff _).mp (he i (h.index_lt hne)))
  · intro he i _
    exact (NodeEntry.isEmpty_iff _).mpr (he i)

/-- A well-formed directory without entries meets the invariant. -/
theorem WellFormed.inv_of_empty {d : Directory} (h : d.WellFormed) (he : d.Empty) : d.Inv := by
  apply h.inv_of_entryInv
  intro i
  rw [h.empty_iff.mp he i]
  trivial

/-- Entries are not empty. -/
theorem WellFormed.entrySize_pos {d : Directory} (h : d.WellFormed) : 0 < d.entrySize :=
  h.arch_inv.entrySize_pos d.layer h.layer_lt

/-- The base of a directory is aligned to its entry size. -/
theorem WellFormed.base_aligned_entrySize {d : Directory} (h : d.WellFormed) :
    aligned d.baseVaddr d.entrySize := by
  have hdvd := (aligned_iff_dvd _ _).mp h.base_aligned
  exact (aligned_iff_dvd _ _).mpr (Nat.dvd_trans (Nat.dvd_mul_right _ _) hdvd)

/-- The next entry starts one entry size further. -/
theorem entryBase_succ (d : Directory) (i : Nat) :
    d.entryBase (i + 1) = d.entryBase i + d.entrySize :=
  d.arch.entryBase_succ d.layer d.baseVaddr i

/-- A directory covers exactly the range of the entry it sits in. -/
theorem Inv.sub_upperVaddr {d d' : Directory} (h : d.Inv) {i : Nat}
    (he : d.entry i = .directory d') : d'.upperVaddr = d.entryBase (i + 1) := by
  obtain ⟨hlayer, hbase⟩ := h.loc.directories_are_in_next_layer i d' he
  have harch := h.loc.directories_match_arch i d' he
  have hlt := (h.sub he).loc.layer_lt
  rw [hlayer, harch] at hlt
  have hnext := h.loc.arch_inv.next_layer_size d.layer hlt
  rw [entryBase_succ, upperVaddr, Arch.upperVaddr, Arch.entryBase, harch, hlayer, hbase,
    Nat.mul_comm, ← hnext, entrySize]

end Directory

/-! ## Lookups -/

-- Lookup in the entries from `i` on, when every entry only maps addresses of its range: the entry
-- at the index of the address decides.
private theorem interpAuxMap_apply {arch : Arch} {layer base : Nat} (l : List NodeEntry) (i : Nat)
    (hbound : ∀ j va p,
      NodeEntry.interpMap (arch.entryBase layer base (i + j)) (l.getD j .empty) va = some p →
      base ≤ va ∧ arch.indexForVaddr layer base va = i + j) (va : Nat) :
    interpAuxMap arch layer base i l va =
      if base ≤ va ∧ i ≤ arch.indexForVaddr layer base va then
        NodeEntry.interpMap (arch.entryBase layer base (arch.indexForVaddr layer base va))
          (l.getD (arch.indexForVaddr layer base va - i) .empty) va
      else none := by
  induction l generalizing i with
  | nil => simp [interpAuxMap, NodeEntry.interpMap]
  | cons e rest ih =>
    have hrest := ih (i + 1) (by
      intro j va p h
      have hb := hbound (j + 1) va p
      rw [List.getD_cons_succ, show i + (j + 1) = i + 1 + j by omega] at hb
      exact hb h)
    rw [interpAuxMap]
    cases h : NodeEntry.interpMap (arch.entryBase layer base i) e va with
    | some p =>
      have hb := hbound 0 va p (by rwa [List.getD_cons_zero, Nat.add_zero])
      rw [PMap.unionPreferRight_of_some h, if_pos ⟨hb.1, by omega⟩, hb.2, Nat.add_zero,
        Nat.sub_self, List.getD_cons_zero, h]
    | none =>
      rw [PMap.unionPreferRight_of_none h, hrest]
      by_cases hidx : i = arch.indexForVaddr layer base va
      · rw [if_neg (by omega), ← hidx, Nat.sub_self, List.getD_cons_zero, h, ite_self]
      · by_cases hle : base ≤ va ∧ i ≤ arch.indexForVaddr layer base va
        · obtain ⟨k, hk⟩ : ∃ k, arch.indexForVaddr layer base va = i + 1 + k :=
            ⟨_, (Nat.add_sub_of_le (by omega)).symm⟩
          rw [if_pos ⟨hle.1, by omega⟩, if_pos hle, hk,
            show i + 1 + k - (i + 1) = k by omega, show i + 1 + k - i = k + 1 by omega,
            List.getD_cons_succ]
        · rw [if_neg (by omega), if_neg hle]

namespace Directory

private theorem LocalInv.entry_bounds {d : Directory} (h : d.LocalInv) (i : Nat)
    (hsub : ∀ d', d.entry i = .directory d' → d'.upperVaddr = d.entryBase (i + 1) ∧
      ∀ va p, d'.interpMap va = some p →
        0 < p.frame.size ∧ d'.baseVaddr ≤ va ∧ va + p.frame.size ≤ d'.upperVaddr)
    {va : Nat} {p : PageTableEntry}
    (hp : NodeEntry.interpMap (d.entryBase i) (d.entry i) va = some p) :
    0 < p.frame.size ∧ d.entryBase i ≤ va ∧ va + p.frame.size ≤ d.entryBase (i + 1) := by
  cases he : d.entry i with
  | empty =>
    rw [he, NodeEntry.interpMap, PMap.empty_apply] at hp
    cases hp
  | page q =>
    rw [he, NodeEntry.interpMap, PMap.insert_eq_some] at hp
    obtain ⟨rfl, rfl⟩ | ⟨_, h⟩ := hp
    · have hsize := h.pages_match_entry_size i q he
      rw [entryBase_succ, hsize]
      exact ⟨h.entrySize_pos, Nat.le_refl _, Nat.le_refl _⟩
    · cases h
  | directory d' =>
    rw [he, NodeEntry.interpMap] at hp
    obtain ⟨hupper, hb⟩ := hsub d' he
    have hbase := (h.directories_are_in_next_layer i d' he).2
    have := hb va p hp
    rwa [hupper, hbase] at this

-- Lookups in a directory are decided by the entry that covers the address, and mapped regions lie
-- within the directory.
private theorem Inv.lookup {d : Directory} (h : d.Inv) :
    (∀ va, d.interpMap va =
      if d.baseVaddr ≤ va then
        NodeEntry.interpMap (d.entryBase (d.indexForVaddr va)) (d.entry (d.indexForVaddr va)) va
      else none) ∧
    ∀ va p, d.interpMap va = some p →
      0 < p.frame.size ∧ d.baseVaddr ≤ va ∧ va + p.frame.size ≤ d.upperVaddr := by
  induction h with
  | @intro d loc sub ih =>
    have hinv : d.Inv := .intro loc sub
    have hbounds : ∀ i va p,
        NodeEntry.interpMap (d.entryBase i) (d.entry i) va = some p →
        0 < p.frame.size ∧ d.entryBase i ≤ va ∧ va + p.frame.size ≤ d.entryBase (i + 1) :=
      fun i va p hp ↦ loc.entry_bounds i
        (fun d' he ↦ ⟨hinv.sub_upperVaddr he, (ih i d' he).2⟩) hp
    have hlookup : ∀ va, d.interpMap va =
        if d.baseVaddr ≤ va then
          NodeEntry.interpMap (d.entryBase (d.indexForVaddr va)) (d.entry (d.indexForVaddr va)) va
        else none := by
      intro va
      have haux := interpAuxMap_apply d.entries 0 (by
          intro j va p hp
          rw [Nat.zero_add] at hp ⊢
          have hb := hbounds j va p hp
          exact ⟨Nat.le_trans (d.arch.le_entryBase _ _ j) hb.2.1,
            Arch.indexForVaddr_eq ⟨hb.2.1, by change va < d.entryBase (j + 1); omega⟩⟩) va
      rw [Nat.sub_zero] at haux
      rw [interpMap_eq, haux]
      simp only [Nat.zero_le, and_true]
      rfl
    refine ⟨hlookup, ?_⟩
    intro va p hp
    rw [hlookup] at hp
    split at hp
    · rename_i hle
      have hb := hbounds _ va p hp
      have hidx : d.indexForVaddr va < d.numEntries := by
        apply loc.index_lt
        intro hempty
        rw [hempty, NodeEntry.interpMap, PMap.empty_apply] at hp
        cases hp
      have hmono := d.arch.entryBase_mono d.layer d.baseVaddr (Nat.succ_le_of_lt hidx)
      exact ⟨hb.1, hle, Nat.le_trans hb.2.2 hmono⟩
    · cases hp

/-- What a directory maps at an address is what the entry covering the address maps there. -/
theorem Inv.interpMap_apply {d : Directory} (h : d.Inv) {va : Nat} (hle : d.baseVaddr ≤ va) :
    d.interpMap va =
      NodeEntry.interpMap (d.entryBase (d.indexForVaddr va)) (d.entry (d.indexForVaddr va)) va := by
  rw [h.lookup.1 va, if_pos hle]

/-- Mapped regions are nonempty and lie within the directory. -/
theorem Inv.interpMap_bounds {d : Directory} (h : d.Inv) {va : Nat} {p : PageTableEntry}
    (hp : d.interpMap va = some p) :
    0 < p.frame.size ∧ d.baseVaddr ≤ va ∧ va + p.frame.size ≤ d.upperVaddr :=
  h.lookup.2 va p hp

/-- Mapped regions lie within the range of the entry that holds them. -/
theorem Inv.entry_interpMap_bounds {d : Directory} (h : d.Inv) {i va : Nat} {p : PageTableEntry}
    (hp : NodeEntry.interpMap (d.entryBase i) (d.entry i) va = some p) :
    d.entryBase i ≤ va ∧ va + p.frame.size ≤ d.entryBase (i + 1) :=
  (h.loc.entry_bounds i
    (fun _ he ↦ ⟨h.sub_upperVaddr he, fun _ _ hp ↦ (h.sub he).interpMap_bounds hp⟩) hp).2

/-- A directory maps exactly what one of its entries maps. -/
theorem Inv.interpMap_eq_some {d : Directory} (h : d.Inv) {va : Nat} {p : PageTableEntry} :
    d.interpMap va = some p ↔
      ∃ i, NodeEntry.interpMap (d.entryBase i) (d.entry i) va = some p := by
  constructor
  · intro hp
    rw [h.interpMap_apply (h.interpMap_bounds hp).2.1] at hp
    exact ⟨_, hp⟩
  · rintro ⟨i, hp⟩
    obtain ⟨hpos, hle, hup⟩ := h.loc.entry_bounds i
      (fun _ he ↦ ⟨h.sub_upperVaddr he, fun _ _ hp ↦ (h.sub he).interpMap_bounds hp⟩) hp
    have hidx : d.indexForVaddr va = i :=
      Arch.indexForVaddr_eq ⟨hle, by change va < d.entryBase (i + 1); omega⟩
    rw [h.interpMap_apply (Nat.le_trans (d.arch.le_entryBase _ _ i) hle), hidx, hp]

/-- An empty directory maps nothing. -/
theorem Inv.interpMap_of_empty {d : Directory} (h : d.Inv) (he : d.Empty) :
    d.interpMap = PMap.empty := by
  funext va
  rw [PMap.empty_apply, Option.eq_none_iff_forall_ne_some]
  intro p hp
  obtain ⟨i, hi⟩ := h.interpMap_eq_some.mp hp
  rw [h.loc.empty_iff.mp he i, NodeEntry.interpMap, PMap.empty_apply] at hi
  cases hi

/-- A directory that is not empty maps something. -/
theorem Inv.exists_interpMap {d : Directory} (h : d.Inv) (hne : ¬d.Empty) :
    ∃ va p, d.interpMap va = some p := by
  induction h with
  | @intro d loc sub ih =>
    have hinv : d.Inv := .intro loc sub
    rw [loc.empty_iff] at hne
    push Not at hne
    obtain ⟨i, hi⟩ := hne
    cases he : d.entry i with
    | empty => exact absurd he hi
    | page p =>
      refine ⟨d.entryBase i, p, hinv.interpMap_eq_some.mpr ⟨i, ?_⟩⟩
      rw [he, NodeEntry.interpMap, PMap.insert_self]
    | directory d' =>
      obtain ⟨va, p, hp⟩ := ih i d' he (loc.directories_are_nonempty i d' he)
      refine ⟨va, p, hinv.interpMap_eq_some.mpr ⟨i, ?_⟩⟩
      rwa [he, NodeEntry.interpMap]

private theorem Inv.interpMap_wf {d : Directory} (h : d.Inv) :
    ∀ va p, d.interpMap va = some p → d.arch.containsEntrySize p.frame.size ∧
      aligned va p.frame.size ∧ aligned p.frame.base p.frame.size := by
  induction h with
  | @intro d loc sub ih =>
    have hinv : d.Inv := .intro loc sub
    intro va p hp
    obtain ⟨i, hi⟩ := hinv.interpMap_eq_some.mp hp
    cases he : d.entry i with
    | empty =>
      rw [he, NodeEntry.interpMap, PMap.empty_apply] at hi
      cases hi
    | page q =>
      rw [he, NodeEntry.interpMap, PMap.insert_eq_some] at hi
      obtain ⟨rfl, rfl⟩ | ⟨_, hi⟩ := hi
      · have hsize := loc.pages_match_entry_size i q he
        rw [hsize]
        have hself : aligned d.entrySize d.entrySize := Nat.mod_self _
        exact ⟨⟨d.layer, Nat.zero_le _, loc.layer_lt, rfl⟩,
          Arch.aligned_entryBase i loc.base_aligned_entrySize hself, loc.frames_aligned i q he⟩
      · cases hi
    | directory d' =>
      rw [he, NodeEntry.interpMap] at hi
      have := ih i d' he va p hi
      rwa [loc.directories_match_arch i d' he] at this

/-- Mappings of an earlier entry end before those of a later entry start. -/
theorem Inv.entries_apart {d : Directory} (h : d.Inv) {i j : Nat} (hij : i < j)
    {b₁ b₂ : Nat} {p₁ p₂ : PageTableEntry}
    (h₁ : NodeEntry.interpMap (d.entryBase i) (d.entry i) b₁ = some p₁)
    (h₂ : NodeEntry.interpMap (d.entryBase j) (d.entry j) b₂ = some p₂) :
    b₁ + p₁.frame.size ≤ b₂ := by
  have hb₁ := (h.entry_interpMap_bounds h₁).2
  have hb₂ := (h.entry_interpMap_bounds h₂).1
  have hmono : d.entryBase (i + 1) ≤ d.entryBase j :=
    d.arch.entryBase_mono d.layer d.baseVaddr hij
  omega

private theorem Inv.interpMap_dont_overlap {d : Directory} (h : d.Inv) :
    ∀ b₁ p₁ b₂ p₂, d.interpMap b₁ = some p₁ → d.interpMap b₂ = some p₂ →
      b₁ = b₂ ∨ ¬overlap ⟨b₁, p₁.frame.size⟩ ⟨b₂, p₂.frame.size⟩ := by
  induction h with
  | @intro d loc sub ih =>
    have hinv : d.Inv := .intro loc sub
    intro b₁ p₁ b₂ p₂ h₁ h₂
    have hpos₁ := (hinv.interpMap_bounds h₁).1
    have hpos₂ := (hinv.interpMap_bounds h₂).1
    obtain ⟨i, hi⟩ := hinv.interpMap_eq_some.mp h₁
    obtain ⟨j, hj⟩ := hinv.interpMap_eq_some.mp h₂
    rcases Nat.lt_trichotomy i j with hlt | heq | hgt
    · exact .inr (not_overlap_of_le hpos₁ hpos₂ (hinv.entries_apart hlt hi hj))
    · subst heq
      cases he : d.entry i with
      | empty =>
        rw [he, NodeEntry.interpMap, PMap.empty_apply] at hi
        cases hi
      | page q =>
        rw [he, NodeEntry.interpMap, PMap.insert_eq_some] at hi hj
        left
        obtain ⟨h₁, _⟩ | ⟨_, h₁⟩ := hi
        · obtain ⟨h₂, _⟩ | ⟨_, h₂⟩ := hj
          · rw [h₁, h₂]
          · cases h₂
        · cases h₁
      | directory d' =>
        rw [he, NodeEntry.interpMap] at hi hj
        exact ih i d' he b₁ p₁ b₂ p₂ hi hj
    · rw [overlap_comm]
      exact .inr (not_overlap_of_le hpos₂ hpos₁ (hinv.entries_apart hgt hj hi))

/-- The interpretation of a directory is well formed (`lemma_inv_implies_interp_inv`,
`impl_u/l1.rs:303–312`). -/
theorem Inv.interp_inv {d : Directory} (h : d.Inv) : d.interp.Inv where
  dom_finite := by
    apply (Set.finite_lt_nat d.upperVaddr).subset
    intro va hva
    obtain ⟨p, hp⟩ := (PMap.mem_dom _ _).mp hva
    have hb := h.interpMap_bounds hp
    show va < d.upperVaddr
    omega
  arch_inv := h.loc.arch_inv
  valid_size va p hp := (h.interpMap_wf va p hp).1
  vaddr_aligned va p hp := (h.interpMap_wf va p hp).2.1
  frame_aligned va p hp := (h.interpMap_wf va p hp).2.2
  dont_overlap := h.interpMap_dont_overlap
  in_bounds _ _ hp := (h.interpMap_bounds hp).2

end Directory

end NrKernel.PageTable
