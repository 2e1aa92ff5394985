import Mathlib.Data.Multiset.Count
import Mathlib.Data.Multiset.Filter
import Mathlib.Data.Set.Basic
import NrKernel.Lib.PartialMap
import NrKernel.Lib.Transition

/-!
# The reader-writer lock protocol

The value of a lock is in its storage unless a writer has it. A writer sets the flag and then
sees every reference count at zero, one after the other; a reader counts itself first and looks
at the flag then. Model of the `RwLockSpec` state machine in `spec/rwlock.rs` with its tokens, and
its invariant: no shared guard is on a cell the writer has passed, and every count is the number
of tokens on its cell.
-/

namespace NrKernel.NodeReplication

open Lib

universe u

namespace RwLockSpec

/-- State of the machine: the parameters, the stored value, the flag, the reference counts and
the tokens of writers and readers (`spec/rwlock.rs:16–43`). -/
structure State (T : Type u) where
  userInv : Set T
  rcWidth : Int
  storage : Option T
  excLocked : Bool
  refCounts : PMap Int Int
  excPending : Option Int
  excGuard : Option Unit
  sharedPending : Multiset Int
  sharedGuard : Multiset (Int × T)

/-- Names of the transitions, with the values that pass through the storage. -/
inductive Label (T : Type u) where
  | excStart
  | excCheckCount
  | excFinish (x : T)
  | excRelease (t : T)
  | sharedStart (r : Int)
  | sharedAbandon (r : Int)
  | sharedFinish (r : Int) (t : T)
  | sharedRelease (val : Int × T)

variable {T : Type u}

/-- A lock that nobody uses (`spec/rwlock.rs:45–60`). -/
def initialState (rcWidth : Int) (initT : T) (userInv : Set T) : State T where
  userInv := userInv
  rcWidth := rcWidth
  storage := some initT
  excLocked := false
  refCounts := fun i ↦ if 0 ≤ i ∧ i < rcWidth then some 0 else none
  excPending := none
  excGuard := none
  sharedPending := 0
  sharedGuard := 0

/-- Transitions of the machine (`spec/rwlock.rs:63–147`). What the source asserts, and what it
has to prove to add a token or to move a value, is not a guard; the value of an empty storage is
unspecified. -/
inductive Next : State T → Label T → State T → Prop
  | excStart {pre : State T} (hfree : pre.excLocked = false) :
      Next pre .excStart { pre with excLocked := true, excPending := some 0 }
  | excCheckCount {pre : State T} (r : Int) (hpending : pre.excPending = some r)
      (hcount : pre.refCounts r = some 0) :
      Next pre .excCheckCount { pre with excPending := some (r + 1) }
  | excFinish {pre : State T} (x : T) (hpending : pre.excPending = some pre.rcWidth)
      (hx : ∀ y, pre.storage = some y → x = y) :
      Next pre (.excFinish x)
        { pre with excPending := none, excGuard := some (), storage := none }
  | excRelease {pre : State T} (t : T) (hinv : t ∈ pre.userInv)
      (hguard : pre.excGuard = some ()) :
      Next pre (.excRelease t)
        { pre with excLocked := false, excGuard := none, storage := some t }
  | sharedStart {pre : State T} (r rc : Int) (hcount : pre.refCounts r = some rc) :
      Next pre (.sharedStart r)
        { pre with
          refCounts := pre.refCounts.insert r (rc + 1)
          sharedPending := r ::ₘ pre.sharedPending }
  | sharedAbandon {pre : State T} (r rc : Int) (pending : Multiset Int)
      (hcount : pre.refCounts r = some rc) (hpos : 0 < rc)
      (hpending : pre.sharedPending = r ::ₘ pending) :
      Next pre (.sharedAbandon r)
        { pre with
          refCounts := pre.refCounts.insert r (rc - 1)
          sharedPending := pending }
  | sharedFinish {pre : State T} (r : Int) (t : T) (pending : Multiset Int)
      (hfree : pre.excLocked = false) (hpending : pre.sharedPending = r ::ₘ pending)
      (ht : ∀ y, pre.storage = some y → t = y) :
      Next pre (.sharedFinish r t)
        { pre with
          sharedPending := pending
          sharedGuard := (r, t) ::ₘ pre.sharedGuard }
  | sharedRelease {pre : State T} (val : Int × T) (rc : Int) (guards : Multiset (Int × T))
      (hguard : pre.sharedGuard = val ::ₘ guards) (hcount : pre.refCounts val.1 = some rc) :
      Next pre (.sharedRelease val)
        { pre with
          refCounts := pre.refCounts.insert val.1 (rc - 1)
          sharedGuard := guards }

variable (T) in
/-- The lock as a machine, any positive number of reference counts and any user invariant. -/
def machine : Machine (State T) (Label T) where
  init := fun s ↦ ∃ rcWidth initT userInv, 0 < rcWidth ∧ initT ∈ userInv ∧
    s = initialState rcWidth initT userInv
  step := Next

/-- What the source asserts in a transition, and what it has to prove to add a token where there
is none and to move the stored value (`spec/rwlock.rs:63–147`). -/
def Asserts (s : State T) : Label T → Prop
  | .excStart => s.excPending = none
  | .excCheckCount => True
  | .excFinish x => s.excGuard = none ∧ s.storage = some x ∧ x ∈ s.userInv
  | .excRelease _ => s.storage = none
  | .sharedStart _ => True
  | .sharedAbandon _ => True
  | .sharedFinish _ t => s.storage = some t ∧ t ∈ s.userInv
  | .sharedRelease val => ∀ rc, s.refCounts val.1 = some rc → 0 < rc

/-! ## Invariant -/

/-- The shared guards on a cell (`spec/rwlock.rs:206–208`). -/
def filterR (sharedGuard : Multiset (Int × T)) (r : Int) : Multiset (Int × T) :=
  sharedGuard.filter fun val ↦ val.1 = r

private theorem card_filterR_cons (val : Int × T) (guards : Multiset (Int × T)) (r : Int) :
    (filterR (val ::ₘ guards) r).card = (filterR guards r).card + if val.1 = r then 1 else 0 := by
  unfold filterR
  split
  · next h => rw [Multiset.filter_cons_of_pos guards h, Multiset.card_cons]
  · next h => rw [Multiset.filter_cons_of_neg guards h, Nat.add_zero]

private theorem card_filterR_pos {guards : Multiset (Int × T)} {val : Int × T} (h : val ∈ guards) :
    0 < (filterR guards val.1).card :=
  Multiset.card_pos_iff_exists_mem.mpr ⟨val, Multiset.mem_filter.mpr ⟨h, rfl⟩⟩

/-- The invariant (`spec/rwlock.rs:165–218`). -/
structure Inv (s : State T) : Prop where
  sto_user_inv : ∀ t, s.storage = some t → t ∈ s.userInv
  width_pos : 0 < s.rcWidth
  ref_counts_domain : ∀ r, (∃ rc, s.refCounts r = some rc) ↔ 0 ≤ r ∧ r < s.rcWidth
  exc_locked : s.excLocked = true ↔ s.excPending ≠ none ∨ s.excGuard ≠ none
  exc_guard : s.storage ≠ none ↔ s.excGuard = none
  exc_pending : ∀ r, s.excPending = some r → 0 ≤ r ∧ r ≤ s.rcWidth ∧ s.excGuard = none ∧
    ∀ val ∈ s.sharedGuard, ¬ (0 ≤ val.1 ∧ val.1 < r)
  shared_pending_in_range : ∀ r ∈ s.sharedPending, 0 ≤ r ∧ r < s.rcWidth
  shared_guard_in_range : ∀ val ∈ s.sharedGuard, 0 ≤ val.1 ∧ val.1 < s.rcWidth
  shared_inv_agree : ∀ val ∈ s.sharedGuard, s.storage = some val.2
  shared_counts_agree : ∀ r rc, s.refCounts r = some rc →
    rc = s.sharedPending.count r + (filterR s.sharedGuard r).card

private theorem inv_initialState {rcWidth : Int} {initT : T} {userInv : Set T} (hpos : 0 < rcWidth)
    (hinit : initT ∈ userInv) : Inv (initialState rcWidth initT userInv) where
  sto_user_inv := by
    rintro _ ⟨⟩
    exact hinit
  width_pos := hpos
  ref_counts_domain := by
    intro r
    simp [initialState]
  exc_locked := by simp [initialState]
  exc_guard := by simp [initialState]
  exc_pending := nofun
  shared_pending_in_range := fun _ h ↦ absurd h (Multiset.notMem_zero _)
  shared_guard_in_range := fun _ h ↦ absurd h (Multiset.notMem_zero _)
  shared_inv_agree := fun _ h ↦ absurd h (Multiset.notMem_zero _)
  shared_counts_agree := by
    intro r rc hrc
    simp only [initialState] at hrc
    split at hrc
    · obtain rfl := Option.some.inj hrc
      simp [initialState, filterR]
    · cases hrc

section Facts

variable {s : State T} {r rc : Int}

/-- While the flag is clear no writer has a token. -/
theorem Inv.no_writer (h : Inv s) (hfree : s.excLocked = false) :
    s.excPending = none ∧ s.excGuard = none := by
  have hnot : ¬ (s.excPending ≠ none ∨ s.excGuard ≠ none) := by
    rw [← h.exc_locked, hfree]
    exact Bool.false_ne_true
  rw [not_or, not_not, not_not] at hnot
  exact hnot

/-- The value is in the storage while the flag is clear. -/
theorem Inv.exists_storage (h : Inv s) (hguard : s.excGuard = none) :
    ∃ t, s.storage = some t :=
  Option.ne_none_iff_exists'.mp (h.exc_guard.mpr hguard)

/-- The exclusive guard excludes the shared ones. -/
theorem Inv.no_reader (h : Inv s) (hguard : s.excGuard = some ()) : s.sharedGuard = 0 := by
  refine Multiset.eq_zero_of_forall_notMem fun val hval ↦ ?_
  have hnone := h.exc_guard.mp (by rw [h.shared_inv_agree val hval]; exact nofun)
  exact absurd (hguard.symm.trans hnone) nofun

/-- The exclusive guard excludes a pending one. -/
theorem Inv.not_pending (h : Inv s) (hguard : s.excGuard = some ()) : s.excPending = none := by
  refine Option.eq_none_iff_forall_ne_some.mpr fun r hr ↦ ?_
  exact absurd (hguard.symm.trans (h.exc_pending r hr).2.2.1) nofun

/-- A count is positive while there is a token on its cell. -/
theorem Inv.count_pos (h : Inv s) (hcount : s.refCounts r = some rc)
    (htoken : r ∈ s.sharedPending ∨ ∃ val ∈ s.sharedGuard, val.1 = r) : 0 < rc := by
  have hrc := h.shared_counts_agree r rc hcount
  rcases htoken with hpending | ⟨val, hguard, rfl⟩
  · have := Multiset.count_pos.mpr hpending
    omega
  · have := card_filterR_pos hguard
    omega

end Facts

section Preservation

variable {s t : State T} {label : Label T} {r rc : Int}

private theorem counts_insert {refCounts : PMap Int Int} {pending pending' : Multiset Int}
    {guards guards' : Multiset (Int × T)} {n : Int}
    (h : ∀ r rc, refCounts r = some rc → rc = pending.count r + (filterR guards r).card)
    (hself : n = pending'.count r + (filterR guards' r).card)
    (hothers : ∀ i, i ≠ r → pending'.count i + (filterR guards' i).card =
      pending.count i + (filterR guards i).card) :
    ∀ i rc, refCounts.insert r n i = some rc →
      rc = pending'.count i + (filterR guards' i).card := by
  intro i rc hrc
  rcases (PMap.insert_eq_some _ _ _ _ _).mp hrc with ⟨rfl, rfl⟩ | ⟨hne, hold⟩
  · exact hself
  · rw [h i rc hold]
    exact_mod_cast (hothers i hne).symm

private theorem dom_insert {refCounts : PMap Int Int} {n : Int} (hcount : refCounts r = some rc)
    (i : Int) : (∃ rc, refCounts.insert r n i = some rc) ↔ ∃ rc, refCounts i = some rc := by
  by_cases hi : i = r
  · subst hi
    exact iff_of_true ⟨n, PMap.insert_self _ _ _⟩ ⟨rc, hcount⟩
  · rw [PMap.insert_of_ne _ _ hi]

/-- Every transition keeps the invariant. -/
theorem Inv.next (h : Inv s) (hstep : Next s label t) : Inv t := by
  cases hstep with
  | excStart hfree =>
    obtain ⟨_, hguard⟩ := h.no_writer hfree
    refine { h with exc_locked := iff_of_true rfl (.inl nofun), exc_pending := ?_ }
    rintro r ⟨⟩
    exact ⟨Int.le_refl 0, h.width_pos.le, hguard, fun _ _ hx ↦ absurd hx.2 (not_lt.mpr hx.1)⟩
  | excCheckCount r hpending hcount =>
    obtain ⟨hr, _, hguard, hpast⟩ := h.exc_pending r hpending
    have hrange := (h.ref_counts_domain r).mp ⟨0, hcount⟩
    have hlocked := h.exc_locked.mpr (.inl (by rw [hpending]; exact nofun))
    refine { h with exc_locked := iff_of_true hlocked (.inl nofun), exc_pending := ?_ }
    rintro _ ⟨⟩
    refine ⟨Int.le_add_one hr, hrange.2, hguard, fun val hval hx ↦ ?_⟩
    rcases Int.lt_or_eq_of_le (Int.lt_add_one_iff.mp hx.2) with hlt | rfl
    · exact hpast val hval ⟨hx.1, hlt⟩
    · -- a guard on the cell would have been counted
      exact Int.lt_irrefl 0 (h.count_pos hcount (.inr ⟨val, hval, rfl⟩))
  | excFinish x hpending hx =>
    obtain ⟨_, _, hguard, hpast⟩ := h.exc_pending _ hpending
    have hlocked := h.exc_locked.mpr (.inl (by rw [hpending]; exact nofun))
    exact { h with
      sto_user_inv := nofun
      exc_locked := iff_of_true hlocked (.inr nofun)
      exc_guard := iff_of_false (fun hx ↦ hx rfl) nofun
      exc_pending := nofun
      shared_inv_agree := fun val hval ↦
        absurd (h.shared_guard_in_range val hval) (hpast val hval) }
  | excRelease t hinv hguard =>
    have hpending := h.not_pending hguard
    have hempty := h.no_reader hguard
    exact { h with
      sto_user_inv := by
        rintro _ ⟨⟩
        exact hinv
      exc_locked := iff_of_false nofun fun hx ↦ hx.elim (fun hne ↦ hne hpending) fun hne ↦ hne rfl
      exc_guard := iff_of_true nofun rfl
      exc_pending := fun r hr ↦ absurd (hpending.symm.trans hr) nofun
      shared_inv_agree := by
        intro val hval
        rw [hempty] at hval
        exact absurd hval (Multiset.notMem_zero val) }
  | sharedStart r rc hcount =>
    have hrange := (h.ref_counts_domain r).mp ⟨rc, hcount⟩
    have hrc := h.shared_counts_agree r rc hcount
    exact { h with
      ref_counts_domain := fun i ↦ (dom_insert hcount i).trans (h.ref_counts_domain i)
      shared_pending_in_range := by
        intro i hi
        rcases Multiset.mem_cons.mp hi with rfl | hmem
        · exact hrange
        · exact h.shared_pending_in_range i hmem
      shared_counts_agree := by
        refine counts_insert h.shared_counts_agree ?_ fun i hi ↦ ?_
        · dsimp only
          rw [Multiset.count_cons_self, hrc]
          omega
        · rw [Multiset.count_cons_of_ne hi] }
  | sharedAbandon r rc pending hcount hpos hpending =>
    have hrc := h.shared_counts_agree r rc hcount
    rw [hpending] at hrc
    exact { h with
      ref_counts_domain := fun i ↦ (dom_insert hcount i).trans (h.ref_counts_domain i)
      shared_pending_in_range := by
        intro i hi
        refine h.shared_pending_in_range i ?_
        rw [hpending]
        exact Multiset.mem_cons_of_mem hi
      shared_counts_agree := by
        refine counts_insert h.shared_counts_agree ?_ fun i hi ↦ ?_
        · rw [Multiset.count_cons_self] at hrc
          dsimp only
          omega
        · rw [hpending, Multiset.count_cons_of_ne hi] }
  | sharedFinish r t pending hfree hpending ht =>
    obtain ⟨hnone, hguard⟩ := h.no_writer hfree
    obtain ⟨y, hy⟩ := h.exists_storage hguard
    obtain rfl := ht y hy
    have hmem : r ∈ s.sharedPending := by
      rw [hpending]
      exact Multiset.mem_cons_self r pending
    exact { h with
      exc_pending := fun r hr ↦ absurd (hnone.symm.trans hr) nofun
      shared_pending_in_range := by
        intro i hi
        refine h.shared_pending_in_range i ?_
        rw [hpending]
        exact Multiset.mem_cons_of_mem hi
      shared_guard_in_range := by
        intro val hval
        rcases Multiset.mem_cons.mp hval with rfl | hold
        · exact h.shared_pending_in_range r hmem
        · exact h.shared_guard_in_range val hold
      shared_inv_agree := by
        intro val hval
        rcases Multiset.mem_cons.mp hval with rfl | hold
        · exact hy
        · exact h.shared_inv_agree val hold
      shared_counts_agree := by
        -- the pending token of the cell turns into a guard on it
        intro i rc hrc
        dsimp only
        rw [h.shared_counts_agree i rc hrc, hpending, card_filterR_cons, Multiset.count_cons]
        by_cases hi : r = i
        · rw [if_pos hi, if_pos hi.symm]
          omega
        · rw [if_neg hi, if_neg (Ne.symm hi)]
          omega }
  | sharedRelease val rc guards hguard hcount =>
    have hrc := h.shared_counts_agree val.1 rc hcount
    have hkept : ∀ v ∈ guards, v ∈ s.sharedGuard := by
      intro v hv
      rw [hguard]
      exact Multiset.mem_cons_of_mem hv
    rw [hguard] at hrc
    exact { h with
      ref_counts_domain := fun i ↦ (dom_insert hcount i).trans (h.ref_counts_domain i)
      exc_pending := by
        intro r hr
        obtain ⟨hr₀, hle, hnone, hpast⟩ := h.exc_pending r hr
        exact ⟨hr₀, hle, hnone, fun v hv ↦ hpast v (hkept v hv)⟩
      shared_guard_in_range := fun v hv ↦ h.shared_guard_in_range v (hkept v hv)
      shared_inv_agree := fun v hv ↦ h.shared_inv_agree v (hkept v hv)
      shared_counts_agree := by
        refine counts_insert h.shared_counts_agree ?_ fun i hi ↦ ?_
        · rw [card_filterR_cons, if_pos rfl] at hrc
          dsimp only
          omega
        · rw [hguard, card_filterR_cons, if_neg (Ne.symm hi), Nat.add_zero] }

end Preservation

/-- The invariant holds in every reachable state. -/
theorem inv_of_reachable {s : State T} (h : (machine T).Reachable s) : Inv s := by
  refine h.invariant (I := Inv) ?_ fun _ _ _ hI hs ↦ hI.next hs
  rintro _ ⟨rcWidth, initT, userInv, hpos, hinit, rfl⟩
  exact inv_initialState hpos hinit

/-- What the source asserts in its transitions holds. -/
theorem Inv.asserts {s t : State T} {label : Label T} (h : Inv s) (hstep : Next s label t) :
    Asserts s label := by
  cases hstep with
  | excStart hfree => exact (h.no_writer hfree).1
  | excCheckCount | sharedStart | sharedAbandon => trivial
  | excFinish x hpending hx =>
    have hguard := (h.exc_pending _ hpending).2.2.1
    obtain ⟨y, hy⟩ := h.exists_storage hguard
    obtain rfl := hx y hy
    exact ⟨hguard, hy, h.sto_user_inv x hy⟩
  | excRelease t hinv hguard =>
    by_contra hstorage
    exact absurd (hguard.symm.trans (h.exc_guard.mp hstorage)) nofun
  | sharedFinish r t pending hfree hpending ht =>
    obtain ⟨y, hy⟩ := h.exists_storage (h.no_writer hfree).2
    obtain rfl := ht y hy
    exact ⟨hy, h.sto_user_inv t hy⟩
  | sharedRelease val rc guards hguard hcount =>
    intro rc hrc
    refine h.count_pos hrc (.inr ⟨val, ?_, rfl⟩)
    rw [hguard]
    exact Multiset.mem_cons_self val guards

/-- The protocol of the lock, in every reachable state, for any number of reference counts and
any number of readers and writers: the exclusive guard excludes the shared guards and a pending
one, and a writer starts or gets the guard only when no other has it; shared guards hold the
stored value; the value is stored exactly when the exclusive guard is not out, and satisfies the
user invariant; and every reference count is the number of pending and held shared guards on its
cell. Every assertion of the source holds. -/
theorem rwLockSpec_protocol {s : State T} (hreach : (machine T).Reachable s) :
    (s.excGuard = some () → s.sharedGuard = 0 ∧ s.excPending = none) ∧
    (∀ label t, Next s label t →
      label = .excStart ∨ (∃ x, label = .excFinish x) → s.excGuard = none ∧
        (label = .excStart → s.excPending = none)) ∧
    (∀ val ∈ s.sharedGuard, s.storage = some val.2) ∧
    ((∃ t, s.storage = some t) ↔ s.excGuard = none) ∧
    (∀ t, s.storage = some t → t ∈ s.userInv) ∧
    (∀ r, 0 ≤ r → r < s.rcWidth → ∃ rc, s.refCounts r = some rc ∧ 0 ≤ rc ∧
      rc = s.sharedPending.count r + (filterR s.sharedGuard r).card) ∧
    (∀ r, s.refCounts r = none → r ∉ s.sharedPending ∧ ∀ val ∈ s.sharedGuard, val.1 ≠ r) ∧
    ∀ label t, Next s label t → Asserts s label := by
  have h := inv_of_reachable hreach
  refine ⟨fun hguard ↦ ⟨h.no_reader hguard, h.not_pending hguard⟩, ?_, h.shared_inv_agree, ?_,
    h.sto_user_inv, fun r hr hlt ↦ ?_, fun r hnone ↦ ?_, fun label t ↦ h.asserts⟩
  · rintro label t hstep (rfl | ⟨x, rfl⟩)
    · cases hstep with
      | excStart hfree =>
        obtain ⟨hpending, hguard⟩ := h.no_writer hfree
        exact ⟨hguard, fun _ ↦ hpending⟩
    · exact ⟨(h.asserts hstep).1, nofun⟩
  · rw [← Option.ne_none_iff_exists']
    exact h.exc_guard
  · obtain ⟨rc, hrc⟩ := (h.ref_counts_domain r).mpr ⟨hr, hlt⟩
    have heq := h.shared_counts_agree r rc hrc
    exact ⟨rc, hrc, by omega, heq⟩
  · have hout : ¬ (0 ≤ r ∧ r < s.rcWidth) := by
      rw [← h.ref_counts_domain r, hnone]
      exact nofun
    refine ⟨fun hmem ↦ hout (h.shared_pending_in_range r hmem), ?_⟩
    rintro val hval rfl
    exact hout (h.shared_guard_in_range val hval)

/-- A reader has its guard on the first of two cells when a writer starts. -/
theorem rwLockSpec_protocol_reading : ∃ s : State Nat, (0, 5) ∈ s.sharedGuard ∧
    s.excPending = some 0 ∧ s.storage = some 5 ∧ s.excGuard = none := by
  have hrun : ∃ s, (machine Nat).Run (initialState 2 5 Set.univ)
      [.sharedStart 0, .sharedFinish 0 5, .excStart] s ∧
        (0, 5) ∈ s.sharedGuard ∧ s.excPending = some 0 := by
    refine Machine.Run.exists_cons (.sharedStart 0 0 rfl) ?_
    refine Machine.Run.exists_cons (.sharedFinish 0 5 0 rfl rfl fun y hy ↦ ?_) ?_
    · exact Option.some.inj hy
    refine Machine.Run.exists_cons (.excStart rfl) ?_
    exact ⟨_, .nil _, by simp, rfl⟩
  obtain ⟨s, hrun, hguard, hpending⟩ := hrun
  have hreach : (machine Nat).Reachable s :=
    ⟨_, _, ⟨2, 5, Set.univ, by decide, Set.mem_univ 5, rfl⟩, hrun⟩
  obtain ⟨_, _, hvalue, hstored, _⟩ := rwLockSpec_protocol hreach
  have hstorage := hvalue _ hguard
  exact ⟨s, hguard, hpending, hstorage, hstored.mp ⟨5, hstorage⟩⟩

end RwLockSpec

end NrKernel.NodeReplication
