import Mathlib.Data.Set.Card
import NrKernel.Lib.Transition

/-!
# The distributed reader-writer lock

A flag for the writer, one reference count for each group of readers, and the cell with the
data. Model of `exec/rwlock.rs`: every access of the atomics or the cell is one step of a
thread. A writer sets the flag and then waits for the counts one by one; a reader counts itself
and then looks at the flag. The invariant follows from the reference counts counting exactly the
threads that added themselves.
-/

namespace NrKernel.NodeReplication

open Lib

universe u v

namespace RwLock

/-- Largest reference count (`exec/rwlock.rs:53`). -/
def maxRc : Nat := 0xfffffffffffffff0

/-- The cell, the flag and the counts (`exec/rwlock.rs:66–76`). -/
structure Shared (T : Type u) where
  data : Option T
  excLocked : Bool
  refCounts : Nat → Nat

/-- The next access of a thread inside `acquire_read`, `acquire_write` or `release_write`, or the
guard it has. -/
inductive Pc where
  | idle
  | sharedLoad
  | sharedAdd (rc : Nat)
  | sharedPending
  | sharedAbandon
  | sharedGuard
  | excStart
  | excPending (idx : Nat)
  | excGuard
  | excRelease
  | stuck

/-- The values that pass between the cell and a thread. -/
inductive Label (T : Type u) where
  | internal
  | borrow (val : T)
  | take (val : T)
  | put (val : T)

variable {T : Type u}

/-- One count replaced. -/
def Shared.setCount (s : Shared T) (k rc : Nat) : Shared T :=
  { s with refCounts := Function.update s.refCounts k rc }

/-- The accesses of a thread that counts itself in `refCounts k`, for a lock of `rcWidth` counts
(`exec/rwlock.rs:276–496`). -/
inductive Step (rcWidth k : Nat) (s : Shared T) : Pc → Label T → Shared T → Pc → Prop
  | loadCount :
      Step rcWidth k s .sharedLoad .internal s
        (if s.refCounts k = maxRc then .stuck else .sharedAdd (s.refCounts k))
  | addCount (rc : Nat) (hrc : s.refCounts k = rc) :
      Step rcWidth k s (.sharedAdd rc) .internal (s.setCount k (rc + 1)) .sharedPending
  | addCountFail (rc : Nat) (hrc : s.refCounts k ≠ rc) :
      Step rcWidth k s (.sharedAdd rc) .internal s .sharedLoad
  | checkExc :
      Step rcWidth k s .sharedPending .internal s
        (if s.excLocked then .sharedAbandon else .sharedGuard)
  | abandon :
      Step rcWidth k s .sharedAbandon .internal (s.setCount k (s.refCounts k - 1)) .sharedLoad
  | borrow (val : T) (hdata : s.data = some val) :
      Step rcWidth k s .sharedGuard (.borrow val) s .sharedGuard
  | releaseRead :
      Step rcWidth k s .sharedGuard .internal (s.setCount k (s.refCounts k - 1)) .idle
  | lockExc (hfree : s.excLocked = false) :
      Step rcWidth k s .excStart .internal { s with excLocked := true } (.excPending 0)
  | lockExcFail (hlocked : s.excLocked = true) : Step rcWidth k s .excStart .internal s .excStart
  | checkCount (idx : Nat) (hidx : idx < rcWidth) :
      Step rcWidth k s (.excPending idx) .internal s
        (.excPending (if s.refCounts idx = 0 then idx + 1 else idx))
  | take (val : T) (hdata : s.data = some val) :
      Step rcWidth k s (.excPending rcWidth) (.take val) { s with data := none } .excGuard
  | put (val : T) :
      Step rcWidth k s .excGuard (.put val) { s with data := some val } .excRelease
  | unlockExc : Step rcWidth k s .excRelease .internal { s with excLocked := false } .idle

/-- A lock and its threads. -/
structure State (T : Type u) (Tid : Type v) where
  shared : Shared T
  pcs : Tid → Pc

section Machine

variable {Tid : Type v} [DecidableEq Tid]

/-- A thread calls a function of the lock or makes an access in one; the counts a thread uses are
those of its thread id (`exec/rwlock.rs:349–352`). -/
inductive Next (rcWidth : Nat) (counter : Tid → Nat) (s : State T Tid) :
    Tid × Label T → State T Tid → Prop
  | acquireRead (t : Tid) (hpc : s.pcs t = .idle) (hvalid : counter t < rcWidth) :
      Next rcWidth counter s (t, .internal)
        { s with pcs := Function.update s.pcs t .sharedLoad }
  | acquireWrite (t : Tid) (hpc : s.pcs t = .idle) :
      Next rcWidth counter s (t, .internal) { s with pcs := Function.update s.pcs t .excStart }
  | step (t : Tid) (label : Label T) (shared : Shared T) (pc : Pc)
      (h : Step rcWidth (counter t) s.shared (s.pcs t) label shared pc) :
      Next rcWidth counter s (t, label) ⟨shared, Function.update s.pcs t pc⟩

/-- A lock that nobody holds (`exec/rwlock.rs:151–274`). -/
def initialState (val : T) : State T Tid where
  shared := ⟨some val, false, fun _ ↦ 0⟩
  pcs := fun _ ↦ .idle

variable (T) in
/-- The lock as a machine, from any first value of the data. -/
def machine (rcWidth : Nat) (counter : Tid → Nat) : Machine (State T Tid) (Tid × Label T) where
  init := fun s ↦ ∃ val, s = initialState val
  step := Next rcWidth counter

end Machine

/-! ## Invariant -/

/-- The thread has added itself to its count. -/
def Pc.Counted : Pc → Prop
  | .sharedPending => True
  | .sharedAbandon => True
  | .sharedGuard => True
  | _ => False

/-- The thread is in `acquire_read` or has its guard. -/
def Pc.Reading : Pc → Prop
  | .sharedLoad => True
  | .sharedAdd _ => True
  | pc => pc.Counted

/-- The thread has set the flag and not cleared it. -/
def Pc.Exclusive : Pc → Prop
  | .excPending _ => True
  | .excGuard => True
  | .excRelease => True
  | _ => False

/-- The thread has waited for all counts, and not cleared the flag. -/
def Pc.Owning : Pc → Prop
  | .excGuard => True
  | .excRelease => True
  | _ => False

/-- An owner of the lock is in its exclusive section. -/
theorem Pc.Owning.exclusive {pc : Pc} (h : pc.Owning) : pc.Exclusive := by
  cases pc <;> trivial

variable {Tid : Type v}

/-- The threads that have added themselves to a count. -/
def countedOn (counter : Tid → Nat) (pcs : Tid → Pc) (k : Nat) : Set Tid :=
  {t | counter t = k ∧ (pcs t).Counted}

/-- Every reference count counts the threads that added themselves. -/
structure Counts (counter : Tid → Nat) (pcs : Tid → Pc) (refCounts : Nat → Nat) : Prop where
  finite : ∀ k, (countedOn counter pcs k).Finite
  eq_ncard : ∀ k, refCounts k = (countedOn counter pcs k).ncard

/-- What every reachable state of a lock satisfies. -/
structure Inv (rcWidth : Nat) (counter : Tid → Nat) (s : State T Tid) : Prop where
  counts : Counts counter s.pcs s.shared.refCounts
  valid : ∀ t, (s.pcs t).Reading → counter t < rcWidth
  exclusive : ∀ t t', (s.pcs t).Exclusive → (s.pcs t').Exclusive → t = t'
  locked : ∀ t, (s.pcs t).Exclusive → s.shared.excLocked = true
  pending : ∀ t idx t', s.pcs t = .excPending idx → counter t' < idx → s.pcs t' ≠ .sharedGuard
  owning : ∀ t t', (s.pcs t).Owning → s.pcs t' ≠ .sharedGuard
  data : s.shared.data = none ↔ ∃ t, s.pcs t = .excGuard

section Guards

variable {rcWidth : Nat} {counter : Tid → Nat} {s : State T Tid} {t t' : Tid}

/-- A guard to read and a guard to write exclude each other. -/
theorem Inv.not_owning (h : Inv rcWidth counter s) (ht : s.pcs t = .sharedGuard) :
    ¬ (s.pcs t').Owning :=
  fun hown ↦ h.owning t' t hown ht

/-- Whoever reads finds the data in the cell. -/
theorem Inv.exists_data (h : Inv rcWidth counter s) (ht : s.pcs t = .sharedGuard) :
    ∃ val, s.shared.data = some val := by
  rw [← Option.ne_none_iff_exists', ne_eq, h.data]
  rintro ⟨t', ht'⟩
  refine h.not_owning ht (?_ : (s.pcs t').Owning)
  rw [ht']
  trivial

/-- While a thread holds or waits for the write guard, no other does. -/
theorem Inv.others (h : Inv rcWidth counter s) (ht : (s.pcs t).Exclusive) :
    ∀ x, x ≠ t → ¬ (s.pcs x).Exclusive :=
  fun x hne hx ↦ hne (h.exclusive x t hx ht)

/-- A thread that holds or waits for the write guard knows whether the data is in the cell. -/
theorem Inv.data_eq_none_iff (h : Inv rcWidth counter s) (ht : (s.pcs t).Exclusive) :
    s.shared.data = none ↔ s.pcs t = .excGuard := by
  rw [h.data]
  constructor
  · rintro ⟨x, hx⟩
    have hexc : (s.pcs x).Exclusive := by
      rw [hx]
      trivial
    rw [← h.exclusive x t hexc ht, hx]
  · exact fun heq ↦ ⟨t, heq⟩

/-- Nobody that counted itself in a count of zero reads. -/
theorem Counts.not_guard {pcs : Tid → Pc} {refCounts : Nat → Nat}
    (h : Counts counter pcs refCounts) (hzero : refCounts (counter t) = 0) :
    pcs t ≠ .sharedGuard := by
  intro ht
  have hempty := h.eq_ncard (counter t)
  rw [hzero, eq_comm, Set.ncard_eq_zero (h.finite _)] at hempty
  have hmem : t ∈ countedOn counter pcs (counter t) := ⟨rfl, ht ▸ trivial⟩
  rw [hempty] at hmem
  exact hmem

end Guards

section Update

variable [DecidableEq Tid] {rcWidth : Nat} {counter : Tid → Nat} {pcs : Tid → Pc} {t : Tid}
  {pc : Pc}

private theorem countedOn_update_of_iff (h : pc.Counted ↔ (pcs t).Counted) (k : Nat) :
    countedOn counter (Function.update pcs t pc) k = countedOn counter pcs k := by
  ext x
  by_cases hx : x = t
  · subst hx
    simp only [countedOn, Set.mem_ofPred_eq, Function.update_self, h]
  · simp only [countedOn, Set.mem_ofPred_eq, Function.update_of_ne hx]

private theorem countedOn_update_of_ne {k : Nat} (h : counter t ≠ k) :
    countedOn counter (Function.update pcs t pc) k = countedOn counter pcs k := by
  ext x
  by_cases hx : x = t
  · subst hx
    simp only [countedOn, Set.mem_ofPred_eq, h, false_and]
  · simp only [countedOn, Set.mem_ofPred_eq, Function.update_of_ne hx]

private theorem countedOn_update_add (h : pc.Counted) :
    countedOn counter (Function.update pcs t pc) (counter t) =
      insert t (countedOn counter pcs (counter t)) := by
  ext x
  by_cases hx : x = t
  · subst hx
    simp only [countedOn, Set.mem_ofPred_eq, Function.update_self, h, and_self, Set.mem_insert_iff,
      true_or]
  · simp only [countedOn, Set.mem_ofPred_eq, Function.update_of_ne hx, Set.mem_insert_iff, hx,
      false_or]

private theorem countedOn_update_sub (h : ¬ pc.Counted) :
    countedOn counter (Function.update pcs t pc) (counter t) =
      countedOn counter pcs (counter t) \ {t} := by
  ext x
  by_cases hx : x = t
  · subst hx
    simp only [countedOn, Set.mem_ofPred_eq, Function.update_self, h, and_false, Set.mem_sdiff,
      Set.mem_singleton_iff, not_true_eq_false]
  · simp only [countedOn, Set.mem_ofPred_eq, Function.update_of_ne hx, Set.mem_sdiff,
      Set.mem_singleton_iff, hx, not_false_eq_true, and_true]

variable {refCounts : Nat → Nat}

private theorem Counts.same (h : Counts counter pcs refCounts)
    (hiff : pc.Counted ↔ (pcs t).Counted) :
    Counts counter (Function.update pcs t pc) refCounts where
  finite := by
    intro k
    rw [countedOn_update_of_iff hiff]
    exact h.finite k
  eq_ncard := by
    intro k
    rw [countedOn_update_of_iff hiff]
    exact h.eq_ncard k

private theorem Counts.add (h : Counts counter pcs refCounts) (hold : ¬ (pcs t).Counted)
    (hnew : pc.Counted) :
    Counts counter (Function.update pcs t pc)
      (Function.update refCounts (counter t) (refCounts (counter t) + 1)) where
  finite := by
    intro k
    by_cases hk : counter t = k
    · subst hk
      rw [countedOn_update_add hnew]
      exact (h.finite _).insert t
    · rw [countedOn_update_of_ne hk]
      exact h.finite k
  eq_ncard := by
    intro k
    by_cases hk : counter t = k
    · subst hk
      rw [countedOn_update_add hnew, Function.update_self,
        Set.ncard_insert_of_notMem (fun hmem ↦ hold hmem.2) (h.finite _), h.eq_ncard]
    · rw [countedOn_update_of_ne hk, Function.update_of_ne (Ne.symm hk)]
      exact h.eq_ncard k

private theorem Counts.sub (h : Counts counter pcs refCounts) (hold : (pcs t).Counted)
    (hnew : ¬ pc.Counted) :
    Counts counter (Function.update pcs t pc)
      (Function.update refCounts (counter t) (refCounts (counter t) - 1)) where
  finite := by
    intro k
    by_cases hk : counter t = k
    · subst hk
      rw [countedOn_update_sub hnew]
      exact (h.finite _).subset Set.sdiff_subset
    · rw [countedOn_update_of_ne hk]
      exact h.finite k
  eq_ncard := by
    intro k
    by_cases hk : counter t = k
    · subst hk
      have hmem : t ∈ countedOn counter pcs (counter t) := ⟨rfl, hold⟩
      rw [countedOn_update_sub hnew, Function.update_self, Set.ncard_sdiff_singleton_of_mem hmem,
        h.eq_ncard]
    · rw [countedOn_update_of_ne hk, Function.update_of_ne (Ne.symm hk)]
      exact h.eq_ncard k

end Update

section Preservation

variable [DecidableEq Tid] {rcWidth : Nat} {counter : Tid → Nat} {s : State T Tid} {t : Tid}

/-- What the new access of a thread does not satisfy, another thread satisfied before. -/
theorem of_update {pcs : Tid → Pc} {pc : Pc} {P : Pc → Prop} (hnew : ¬ P pc) {x : Tid}
    (h : P (Function.update pcs t pc x)) : P (pcs x) := by
  by_cases hx : x = t
  · subst hx
    rw [Function.update_self] at h
    exact absurd h hnew
  · rwa [Function.update_of_ne hx] at h

/-- A thread that neither holds nor waits for the write guard goes on; it gets the read guard
only while the flag is clear. -/
theorem Inv.reader (h : Inv rcWidth counter s) {pc : Pc} {refCounts : Nat → Nat}
    (hold : ¬ (s.pcs t).Exclusive) (hnew : ¬ pc.Exclusive)
    (hguard : pc = .sharedGuard → s.pcs t = .sharedGuard ∨ s.shared.excLocked = false)
    (hvalid : pc.Reading → counter t < rcWidth)
    (hcounts : Counts counter (Function.update s.pcs t pc) refCounts) :
    Inv rcWidth counter
      ⟨{ s.shared with refCounts := refCounts }, Function.update s.pcs t pc⟩ := by
  have hexc : ∀ x, (Function.update s.pcs t pc x).Exclusive → (s.pcs x).Exclusive :=
    fun x ↦ of_update (P := Pc.Exclusive) hnew
  have hshared : ∀ x y, (s.pcs x).Exclusive → Function.update s.pcs t pc y = .sharedGuard →
      s.pcs y = .sharedGuard := by
    intro x y hx hy
    by_cases hyt : y = t
    · subst hyt
      rw [Function.update_self] at hy
      rcases hguard hy with hsame | hfree
      · exact hsame
      · rw [h.locked x hx] at hfree
        cases hfree
    · rwa [Function.update_of_ne hyt] at hy
  have hpending : ∀ x idx, Function.update s.pcs t pc x = .excPending idx →
      s.pcs x = .excPending idx := by
    intro x idx
    apply of_update (P := (· = .excPending idx))
    rintro rfl
    exact hnew trivial
  have htaken : ∀ x, Function.update s.pcs t pc x = .excGuard ↔ s.pcs x = .excGuard := by
    intro x
    by_cases hx : x = t
    · subst hx
      rw [Function.update_self]
      constructor
      · rintro rfl
        exact absurd trivial hnew
      · intro heq
        rw [heq] at hold
        exact absurd trivial hold
    · rw [Function.update_of_ne hx]
  refine ⟨hcounts, fun x hx ↦ ?_, fun x y hx hy ↦ h.exclusive x y (hexc x hx) (hexc y hy),
    fun x hx ↦ h.locked x (hexc x hx), fun x idx y hx hlt hy ↦ ?_, fun x y hx hy ↦ ?_, ?_⟩
  · by_cases hxt : x = t
    · subst hxt
      exact hvalid (by simpa using hx)
    · exact h.valid x (by simpa [hxt] using hx)
  · have hx' := hpending x idx hx
    exact h.pending x idx y hx' hlt (hshared x y (by rw [hx']; trivial) hy)
  · have hx' : (s.pcs x).Owning :=
      of_update (P := Pc.Owning) (fun hown ↦ hnew hown.exclusive) hx
    exact h.owning x y hx' (hshared x y hx'.exclusive hy)
  · simp only [htaken]
    exact h.data

/-- A thread on its way to, at or after the write guard goes on. -/
theorem Inv.writer (h : Inv rcWidth counter s) {pc : Pc} {shared : Shared T}
    (hother : ∀ x, x ≠ t → ¬ (s.pcs x).Exclusive) (hold : ¬ (s.pcs t).Counted)
    (hnew : ¬ pc.Reading) (hcounts : shared.refCounts = s.shared.refCounts)
    (hlocked : pc.Exclusive → shared.excLocked = true)
    (hpending : ∀ idx y, pc = .excPending idx → counter y < idx → s.pcs y ≠ .sharedGuard)
    (howning : pc.Owning → ∀ y, s.pcs y ≠ .sharedGuard)
    (hdata : shared.data = none ↔ pc = .excGuard) :
    Inv rcWidth counter ⟨shared, Function.update s.pcs t pc⟩ := by
  have hcounted : ¬ pc.Counted := by
    cases pc <;> first | exact hnew | exact id
  have hexc : ∀ x, (Function.update s.pcs t pc x).Exclusive → x = t ∧ pc.Exclusive := by
    intro x hx
    by_cases hxt : x = t
    · subst hxt
      exact ⟨rfl, by simpa using hx⟩
    · exact absurd (by simpa [hxt] using hx) (hother x hxt)
  have hshared : ∀ y, Function.update s.pcs t pc y = .sharedGuard →
      s.pcs y = .sharedGuard := by
    intro y
    apply of_update (P := (· = .sharedGuard))
    rintro rfl
    exact hnew trivial
  refine ⟨?_, fun x hx ↦ h.valid x (of_update (P := Pc.Reading) hnew hx),
    fun x y hx hy ↦ (hexc x hx).1.trans (hexc y hy).1.symm, fun x hx ↦ hlocked (hexc x hx).2,
    fun x idx y hx hlt hy ↦ ?_, fun x y hx hy ↦ ?_, ?_⟩
  · rw [hcounts]
    exact h.counts.same (iff_of_false hcounted hold)
  · change Function.update s.pcs t pc x = .excPending idx at hx
    obtain ⟨rfl, _⟩ := hexc x (by rw [hx]; trivial)
    rw [Function.update_self] at hx
    exact hpending idx y hx hlt (hshared y hy)
  · change (Function.update s.pcs t pc x).Owning at hx
    obtain ⟨rfl, _⟩ := hexc x hx.exclusive
    rw [Function.update_self] at hx
    exact howning hx y (hshared y hy)
  · rw [hdata]
    constructor
    · intro heq
      exact ⟨t, (Function.update_self _ _ _).trans heq⟩
    · rintro ⟨x, hx⟩
      change Function.update s.pcs t pc x = .excGuard at hx
      obtain ⟨rfl, _⟩ := hexc x (by rw [hx]; trivial)
      rwa [Function.update_self] at hx

/-- A thread calls `acquire_read`. -/
theorem Inv.acquireRead (h : Inv rcWidth counter s) (hpc : s.pcs t = .idle)
    (hvalid : counter t < rcWidth) :
    Inv rcWidth counter ⟨s.shared, Function.update s.pcs t .sharedLoad⟩ := by
  apply h.reader
  · rw [hpc]
    exact id
  · exact id
  · exact nofun
  · exact fun _ ↦ hvalid
  · apply h.counts.same
    rw [hpc]
    exact Iff.rfl

/-- A thread calls `acquire_write`. -/
theorem Inv.acquireWrite (h : Inv rcWidth counter s) (hpc : s.pcs t = .idle) :
    Inv rcWidth counter ⟨s.shared, Function.update s.pcs t .excStart⟩ := by
  apply h.reader
  · rw [hpc]
    exact id
  · exact id
  · exact nofun
  · exact False.elim
  · apply h.counts.same
    rw [hpc]
    exact Iff.rfl

/-- Every access keeps the invariant. -/
theorem Inv.step (h : Inv rcWidth counter s) {label : Label T} {shared : Shared T} {pc : Pc}
    (hstep : Step rcWidth (counter t) s.shared (s.pcs t) label shared pc) :
    Inv rcWidth counter ⟨shared, Function.update s.pcs t pc⟩ := by
  have hexc := h.others (t := t)
  have hvalid := h.valid t
  have hlocked := h.locked t
  generalize hpc : s.pcs t = old at hstep hexc hvalid hlocked
  have hsame : ∀ {pc : Pc}, (pc.Counted ↔ old.Counted) →
      Counts counter (Function.update s.pcs t pc) s.shared.refCounts := by
    intro pc hiff
    apply h.counts.same
    rw [hpc]
    exact hiff
  cases hstep with
  | loadCount =>
    apply h.reader
    · rw [hpc]
      exact id
    · split <;> exact id
    · split <;> exact nofun
    · split <;> exact fun _ ↦ hvalid trivial
    · apply hsame
      split <;> exact Iff.rfl
  | addCount rc hrc =>
    subst hrc
    apply h.reader
    · rw [hpc]
      exact id
    · exact id
    · exact nofun
    · exact fun _ ↦ hvalid trivial
    · apply h.counts.add
      · rw [hpc]
        exact id
      · trivial
  | addCountFail rc hrc =>
    apply h.reader
    · rw [hpc]
      exact id
    · exact id
    · exact nofun
    · exact fun _ ↦ hvalid trivial
    · exact hsame Iff.rfl
  | checkExc =>
    apply h.reader
    · rw [hpc]
      exact id
    · split <;> exact id
    · split
      · exact nofun
      · next hfree => exact fun _ ↦ .inr (Bool.eq_false_of_not_eq_true hfree)
    · split <;> exact fun _ ↦ hvalid trivial
    · apply hsame
      split <;> exact Iff.rfl
  | abandon =>
    apply h.reader
    · rw [hpc]
      exact id
    · exact id
    · exact nofun
    · exact fun _ ↦ hvalid trivial
    · apply h.counts.sub
      · rw [hpc]
        trivial
      · exact id
  | borrow val hdata =>
    rw [← hpc, Function.update_eq_self]
    exact h
  | releaseRead =>
    apply h.reader
    · rw [hpc]
      exact id
    · exact id
    · exact nofun
    · exact False.elim
    · apply h.counts.sub
      · rw [hpc]
        trivial
      · exact id
  | lockExc hfree =>
    have hnone : ∀ x, ¬ (s.pcs x).Exclusive := by
      intro x hx
      rw [h.locked x hx] at hfree
      cases hfree
    apply h.writer (fun x _ ↦ hnone x)
    · rw [hpc]
      exact id
    · exact id
    · rfl
    · exact fun _ ↦ rfl
    · rintro _ y ⟨⟩ hlt
      exact absurd hlt (Nat.not_lt_zero _)
    · exact False.elim
    · rw [h.data]
      refine iff_of_false ?_ nofun
      rintro ⟨x, hx⟩
      apply hnone x
      rw [hx]
      trivial
  | lockExcFail hlocked' =>
    rw [← hpc, Function.update_eq_self]
    exact h
  | checkCount idx hidx =>
    apply h.writer (hexc trivial)
    · rw [hpc]
      exact id
    · exact id
    · rfl
    · exact fun _ ↦ hlocked trivial
    · rintro _ y ⟨⟩ hlt
      by_cases hy : counter y < idx
      · exact h.pending t idx y hpc hy
      · split at hlt
        · next hzero =>
          have heq : counter y = idx := by omega
          rw [← heq] at hzero
          exact h.counts.not_guard hzero
        · exact absurd hlt hy
    · exact False.elim
    · rw [h.data_eq_none_iff (t := t) (by rw [hpc]; trivial), hpc]
      exact iff_of_false nofun nofun
  | take val hdata =>
    apply h.writer (hexc trivial)
    · rw [hpc]
      exact id
    · exact id
    · rfl
    · exact fun _ ↦ hlocked trivial
    · exact nofun
    · intro _ y hy
      refine h.pending t rcWidth y hpc (h.valid y ?_) hy
      rw [hy]
      trivial
    · exact iff_of_true rfl rfl
  | put val =>
    apply h.writer (hexc trivial)
    · rw [hpc]
      exact id
    · exact id
    · rfl
    · exact fun _ ↦ hlocked trivial
    · exact nofun
    · intro _ y
      apply h.owning t y
      rw [hpc]
      trivial
    · exact iff_of_false nofun nofun
  | unlockExc =>
    apply h.writer (hexc trivial)
    · rw [hpc]
      exact id
    · exact id
    · rfl
    · exact False.elim
    · exact nofun
    · exact False.elim
    · rw [h.data_eq_none_iff (t := t) (by rw [hpc]; trivial), hpc]
      exact iff_of_false nofun nofun

end Preservation

section Runs

variable {rcWidth : Nat} {counter : Tid → Nat} {s : State T Tid}

/-- The invariant holds at the start. -/
theorem inv_initialState (val : T) : Inv rcWidth counter (initialState val : State T Tid) where
  counts :=
    { finite := by
        intro k
        rw [show countedOn counter (initialState val : State T Tid).pcs k = ∅ from
          Set.eq_empty_of_forall_notMem fun _ hmem ↦ hmem.2]
        exact Set.finite_empty
      eq_ncard := by
        intro k
        rw [show countedOn counter (initialState val : State T Tid).pcs k = ∅ from
          Set.eq_empty_of_forall_notMem fun _ hmem ↦ hmem.2, Set.ncard_empty]
        rfl }
  valid := fun _ h ↦ h.elim
  exclusive := fun _ _ h ↦ h.elim
  locked := fun _ h ↦ h.elim
  pending := fun _ _ _ h ↦ nomatch h
  owning := fun _ _ h ↦ h.elim
  data := iff_of_false nofun fun ⟨_, h⟩ ↦ nomatch h

/-- Every reachable state of a lock satisfies the invariant. -/
theorem inv_of_reachable [DecidableEq Tid] (h : (machine T rcWidth counter).Reachable s) :
    Inv rcWidth counter s := by
  refine h.invariant (I := Inv rcWidth counter) ?_ fun s l s' hs hstep ↦ ?_
  · rintro _ ⟨val, rfl⟩
    exact inv_initialState val
  · cases hstep with
    | acquireRead t hpc hvalid => exact hs.acquireRead hpc hvalid
    | acquireWrite t hpc => exact hs.acquireWrite hpc
    | step t label shared pc hstep => exact hs.step hstep

end Runs

end RwLock

end NrKernel.NodeReplication
