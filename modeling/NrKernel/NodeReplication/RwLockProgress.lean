import Mathlib.Data.Set.Card
import Mathlib.Logic.Relation
import NrKernel.NodeReplication.RwLock

/-!
# The lock serves its threads

As long as fewer threads share a count than it can count, no thread of the lock gets stuck, and
from every reachable state the threads inside of it can go on until each had its guard and the
lock is free again. First the readers leave their counts, where they hold up the writer; then the
writer passes; then nobody is in the way of the others.
-/

namespace NrKernel.NodeReplication

open Lib

universe u v

namespace RwLock

variable {T : Type u} {Tid : Type v}

/-- The guard a thread in `acquire_read` or `acquire_write` is on its way to. -/
def Pc.awaits : Pc → Option Pc
  | .sharedLoad | .sharedAdd _ | .sharedPending | .sharedAbandon => some .sharedGuard
  | .excStart | .excPending _ => some .excGuard
  | _ => none

/-! ## One thread -/

/-- A thread goes from one access to another while the other threads stand still. -/
def Goes (rcWidth k : Nat) : Shared T × Pc → Shared T × Pc → Prop :=
  Relation.ReflTransGen fun a b ↦ ∃ label, Step rcWidth k a.1 a.2 label b.1 b.2

section Thread

variable {rcWidth k : Nat} {shared shared' : Shared T} {pc pc' : Pc}

/-- A thread on its way to a guard gets it, is still on its way, or is stuck. -/
theorem Step.awaits {label : Label T} {guard : Pc}
    (hstep : Step rcWidth k shared pc label shared' pc') (h : pc.awaits = some guard) :
    pc' = guard ∨ pc'.awaits = some guard ∨ pc' = .stuck := by
  cases hstep with
  | loadCount | checkExc =>
    cases h
    split <;> simp [Pc.awaits]
  | addCount | addCountFail | abandon | lockExc | lockExcFail | checkCount => exact .inr (.inl h)
  | take =>
    cases h
    exact .inl rfl
  | borrow | releaseRead | put | unlockExc => cases h

/-- The guard to write is got with the value of the cell. -/
theorem Step.awaits_exc (hstep : Step rcWidth k shared pc .internal shared' pc')
    (h : pc.awaits = some .excGuard) : pc'.awaits = some .excGuard := by
  cases hstep with
  | lockExc | lockExcFail | checkCount => rfl
  | loadCount | addCount | addCountFail | checkExc | abandon | releaseRead | unlockExc => cases h

/-- A thread on its way to a guard has its next access. -/
theorem exists_step_of_awaits (rcWidth k : Nat) (shared : Shared T) {guard : Pc}
    (h : pc.awaits = some guard) (hidx : ∀ idx, pc = .excPending idx → idx < rcWidth) :
    ∃ shared' pc', Step rcWidth k shared pc .internal shared' pc' := by
  cases pc with
  | sharedLoad => exact ⟨_, _, .loadCount⟩
  | sharedAdd rc =>
    by_cases hrc : shared.refCounts k = rc
    · exact ⟨_, _, .addCount rc hrc⟩
    · exact ⟨_, _, .addCountFail rc hrc⟩
  | sharedPending => exact ⟨_, _, .checkExc⟩
  | sharedAbandon => exact ⟨_, _, .abandon⟩
  | excStart =>
    cases hlocked : shared.excLocked with
    | true => exact ⟨_, _, .lockExcFail hlocked⟩
    | false => exact ⟨_, _, .lockExc hlocked⟩
  | excPending idx => exact ⟨_, _, .checkCount idx (hidx idx rfl)⟩
  | idle | sharedGuard | excGuard | excRelease | stuck => cases h

private theorem Step.goes {label : Label T} (hstep : Step rcWidth k shared pc label shared' pc')
    {b : Shared T × Pc} (h : Goes rcWidth k (shared', pc') b) : Goes rcWidth k (shared, pc) b :=
  .head ⟨label, hstep⟩ h

/-- A reader leaves its count, with the guard or because of a writer. -/
theorem exists_goes_uncounted (rcWidth k : Nat) (shared : Shared T) (hpc : pc.Counted) :
    ∃ shared' pc', Goes rcWidth k (shared, pc) (shared', pc') ∧ ¬ pc'.Counted := by
  have habandon : ∃ shared' pc', Goes rcWidth k (shared, .sharedAbandon) (shared', pc') ∧
      ¬ pc'.Counted :=
    ⟨_, .sharedLoad, Step.abandon.goes .refl, id⟩
  have hrelease : ∃ shared' pc', Goes rcWidth k (shared, .sharedGuard) (shared', pc') ∧
      ¬ pc'.Counted :=
    ⟨_, .idle, Step.releaseRead.goes .refl, id⟩
  cases pc with
  | sharedPending =>
    have hcheck : Step rcWidth k shared .sharedPending .internal shared _ := .checkExc
    cases hlocked : shared.excLocked with
    | true =>
      rw [hlocked, if_pos rfl] at hcheck
      obtain ⟨shared', pc', hgoes, hout⟩ := habandon
      exact ⟨shared', pc', hcheck.goes hgoes, hout⟩
    | false =>
      rw [hlocked, if_neg Bool.false_ne_true] at hcheck
      obtain ⟨shared', pc', hgoes, hout⟩ := hrelease
      exact ⟨shared', pc', hcheck.goes hgoes, hout⟩
  | sharedAbandon => exact habandon
  | sharedGuard => exact hrelease
  | _ => exact hpc.elim

/-- A writer that finds no reader passes all counts. -/
theorem goes_excPending (hzero : ∀ i, shared.refCounts i = 0) {idx : Nat} (hidx : idx ≤ rcWidth) :
    Goes rcWidth k (shared, .excPending idx) (shared, .excPending rcWidth) := by
  -- by induction on the counts left
  generalize hn : rcWidth - idx = n
  induction n generalizing idx with
  | zero =>
    obtain rfl : idx = rcWidth := by omega
    exact .refl
  | succ n ih =>
    have hcheck : Step rcWidth k shared (.excPending idx) .internal shared _ :=
      .checkCount idx (by omega)
    rw [if_pos (hzero idx)] at hcheck
    exact hcheck.goes (ih (by omega) (by omega))

/-- A writer that finds no reader gets its guard and releases it. -/
theorem exists_goes_idle_of_exclusive [Nonempty T] (hzero : ∀ i, shared.refCounts i = 0)
    (hpc : pc.Exclusive) (hidx : ∀ idx, pc = .excPending idx → idx ≤ rcWidth)
    (hdata : shared.data = none → pc = .excGuard) :
    ∃ shared', Goes rcWidth k (shared, pc) (shared', .idle) := by
  have hput : ∀ shared : Shared T, ∃ shared', Goes rcWidth k (shared, .excGuard) (shared', .idle) :=
    fun shared ↦ ⟨_, (Step.put (Classical.arbitrary T)).goes (Step.unlockExc.goes .refl)⟩
  cases pc with
  | excPending idx =>
    obtain ⟨val, hval⟩ := Option.ne_none_iff_exists'.mp (mt hdata nofun)
    obtain ⟨shared', hgoes⟩ := hput { shared with data := none }
    exact ⟨shared', (goes_excPending hzero (hidx idx rfl)).trans ((Step.take val hval).goes hgoes)⟩
  | excGuard => exact hput shared
  | excRelease => exact ⟨_, Step.unlockExc.goes .refl⟩
  | _ => exact hpc.elim

/-- A reader that adds itself while the lock is free gets its guard and releases it. -/
theorem exists_goes_idle_of_sharedAdd (hfree : shared.excLocked = false) {rc : Nat}
    (hrc : shared.refCounts k = rc) :
    ∃ shared', Goes rcWidth k (shared, .sharedAdd rc) (shared', .idle) := by
  have hadd : Step rcWidth k shared (.sharedAdd rc) .internal _ _ := .addCount rc hrc
  have hcheck : Step rcWidth k (shared.setCount k (rc + 1)) .sharedPending .internal _ _ :=
    .checkExc
  rw [show (shared.setCount k (rc + 1)).excLocked = false from hfree,
    if_neg Bool.false_ne_true] at hcheck
  exact ⟨_, hadd.goes (hcheck.goes (Step.releaseRead.goes .refl))⟩

/-- Every thread that waits outside of a free lock gets its guard and releases it. -/
theorem exists_goes_idle [Nonempty T] (hzero : ∀ i, shared.refCounts i = 0)
    (hfree : shared.excLocked = false) (hdata : shared.data ≠ none) (hcounted : ¬ pc.Counted)
    (hexc : ¬ pc.Exclusive) (hstuck : pc ≠ .stuck) :
    ∃ shared', Goes rcWidth k (shared, pc) (shared', .idle) := by
  have hread : ∃ shared', Goes rcWidth k (shared, .sharedLoad) (shared', .idle) := by
    have hload : Step rcWidth k shared .sharedLoad .internal shared _ := .loadCount
    rw [hzero, if_neg (by decide)] at hload
    obtain ⟨shared', hgoes⟩ := exists_goes_idle_of_sharedAdd hfree (hzero k)
    exact ⟨shared', hload.goes hgoes⟩
  cases pc with
  | idle => exact ⟨shared, .refl⟩
  | sharedLoad => exact hread
  | sharedAdd rc =>
    -- the count it read is still there, or it reads it again
    by_cases hrc : shared.refCounts k = rc
    · exact exists_goes_idle_of_sharedAdd hfree hrc
    · obtain ⟨shared', hgoes⟩ := hread
      exact ⟨shared', (Step.addCountFail rc hrc).goes hgoes⟩
  | excStart =>
    obtain ⟨shared', hgoes⟩ : ∃ shared', Goes rcWidth k
        ({ shared with excLocked := true }, .excPending 0) (shared', .idle) :=
      exists_goes_idle_of_exclusive hzero trivial
        (fun idx heq ↦ by cases heq; exact Nat.zero_le _) (fun hnone ↦ absurd hnone hdata)
    exact ⟨shared', (Step.lockExc hfree).goes hgoes⟩
  | stuck => exact absurd rfl hstuck
  | sharedPending | sharedAbandon | sharedGuard => exact absurd trivial hcounted
  | excPending | excGuard | excRelease => exact absurd trivial hexc

end Thread

/-! ## All threads -/

/-- What a reachable state of a lock with few threads satisfies besides the invariant. -/
structure Live (rcWidth : Nat) (s : State T Tid) : Prop where
  finite : {t | s.pcs t ≠ .idle}.Finite
  locked : s.shared.excLocked = true → ∃ t, (s.pcs t).Exclusive
  pending : ∀ t idx, s.pcs t = .excPending idx → idx ≤ rcWidth
  stuck : ∀ t, s.pcs t ≠ .stuck

/-- Fewer threads use a count than it can count. -/
def FewThreads (counter : Tid → Nat) : Prop := ∀ k, {t | counter t = k}.encard < (maxRc : ℕ∞)

/-- A thread that has a count of its own is alone in it. -/
theorem fewThreads_of_injective {counter : Tid → Nat} (h : Function.Injective counter) :
    FewThreads counter := by
  intro k
  have hone : {t | counter t = k}.encard ≤ 1 :=
    Set.encard_le_one_iff.mpr fun t t' ht ht' ↦ h (ht.trans ht'.symm)
  exact hone.trans_lt (Nat.one_lt_cast.mpr (by decide))

section Liveness

variable [DecidableEq Tid] {rcWidth : Nat} {counter : Tid → Nat} {s s' : State T Tid} {t : Tid}

/-- A thread goes on; the flag stays with whoever has set it. -/
theorem Live.update (h : Live rcWidth s) {shared : Shared T} {pc : Pc}
    (hlocked : shared.excLocked = true →
      pc.Exclusive ∨ s.shared.excLocked = true ∧ ¬ (s.pcs t).Exclusive)
    (hpending : ∀ idx, pc = .excPending idx → idx ≤ rcWidth) (hstuck : pc ≠ .stuck) :
    Live rcWidth ⟨shared, Function.update s.pcs t pc⟩ := by
  have hself : Function.update s.pcs t pc t = pc := Function.update_self ..
  have hne : ∀ x, x ≠ t → Function.update s.pcs t pc x = s.pcs x :=
    fun x hx ↦ Function.update_of_ne hx ..
  refine ⟨(h.finite.insert t).subset fun x hx ↦ ?_, fun hset ↦ ?_, fun x idx hx ↦ ?_,
    fun x hx ↦ ?_⟩
  · by_cases hxt : x = t
    · exact .inl hxt
    · exact .inr fun hidle ↦ hx ((hne x hxt).trans hidle)
  · rcases hlocked hset with hexc | ⟨hold, hother⟩
    · refine ⟨t, (?_ : (Function.update s.pcs t pc t).Exclusive)⟩
      rwa [hself]
    · obtain ⟨x, hx⟩ := h.locked hold
      have hxt : x ≠ t := by
        rintro rfl
        exact hother hx
      refine ⟨x, (?_ : (Function.update s.pcs t pc x).Exclusive)⟩
      rwa [hne x hxt]
  · by_cases hxt : x = t
    · subst hxt
      exact hpending idx (hself.symm.trans hx)
    · exact h.pending x idx ((hne x hxt).symm.trans hx)
  · by_cases hxt : x = t
    · subst hxt
      exact hstuck (hself.symm.trans hx)
    · exact h.stuck x ((hne x hxt).symm.trans hx)

omit [DecidableEq Tid] in
private theorem Counts.lt_maxRc {pcs : Tid → Pc} {refCounts : Nat → Nat}
    (h : Counts counter pcs refCounts)
    (hfew : FewThreads counter) (k : Nat) : refCounts k < maxRc := by
  have hsub : (countedOn counter pcs k).encard ≤ {t | counter t = k}.encard :=
    Set.encard_le_encard fun x hx ↦ hx.1
  rw [h.eq_ncard, ← Nat.cast_lt (α := ℕ∞), (h.finite k).cast_ncard_eq]
  exact hsub.trans_lt (hfew k)

private theorem Live.next (h : Live rcWidth s) (hinv : Inv rcWidth counter s)
    (hfew : FewThreads counter)
    {label : Tid × Label T} (hstep : Next rcWidth counter s label s') : Live rcWidth s' := by
  cases hstep with
  | acquireRead t hpc | acquireWrite t hpc =>
    refine h.update (fun hset ↦ .inr ⟨hset, ?_⟩) nofun nofun
    rw [hpc]
    exact id
  | step t label shared pc hstep =>
    have hlt := hinv.counts.lt_maxRc hfew (counter t)
    have hreader : ¬ (s.pcs t).Exclusive → shared.excLocked = s.shared.excLocked →
        (∀ idx, pc ≠ .excPending idx) → pc ≠ .stuck →
        Live rcWidth ⟨shared, Function.update s.pcs t pc⟩ :=
      fun hold hsame hnew hstuck ↦ h.update (fun hset ↦ .inr ⟨hsame ▸ hset, hold⟩)
        (fun idx heq ↦ absurd heq (hnew idx)) hstuck
    generalize hpc : s.pcs t = old at hstep hreader
    cases hstep with
    | loadCount =>
      rw [if_neg hlt.ne] at hreader ⊢
      exact hreader id rfl nofun nofun
    | checkExc =>
      apply hreader id rfl
      · split <;> exact nofun
      · split <;> exact nofun
    | addCount | addCountFail | abandon | borrow | releaseRead | lockExcFail =>
      exact hreader id rfl nofun nofun
    | lockExc => exact h.update (fun _ ↦ .inl trivial) (fun idx heq ↦ by cases heq; omega) nofun
    | checkCount idx hidx =>
      refine h.update (fun _ ↦ .inl trivial) (fun i heq ↦ ?_) nofun
      cases heq
      split <;> omega
    | take | put => exact h.update (fun _ ↦ .inl trivial) nofun nofun
    | unlockExc => exact h.update nofun nofun nofun

/-- Every reachable state is live. -/
theorem live_of_reachable (hfew : FewThreads counter)
    (h : (machine T rcWidth counter).Reachable s) : Live rcWidth s := by
  have hboth : (machine T rcWidth counter).Reachable s ∧ Live rcWidth s := by
    refine h.invariant (I := fun s ↦ (machine T rcWidth counter).Reachable s ∧ Live rcWidth s) ?_ ?_
    · rintro _ ⟨val, rfl⟩
      refine ⟨.of_init ⟨val, rfl⟩, ?_, nofun, nofun, nofun⟩
      exact Set.finite_empty.subset fun x hx ↦ hx rfl
    · rintro s label s' ⟨hreach, hlive⟩ hstep
      exact ⟨hreach.step hstep, hlive.next (inv_of_reachable hreach) hfew hstep⟩
  exact hboth.2

variable (T) in
/-- The lock while no thread calls a function of it. -/
def servingMachine (rcWidth : Nat) (counter : Tid → Nat) : Machine (State T Tid) (Tid × Label T) :=
  (machine T rcWidth counter).restrict fun s _ s' ↦ ∀ t, s.pcs t = .idle → s'.pcs t = .idle

/-- The threads inside of the lock lead from one state to the other. -/
def ServingRun (rcWidth : Nat) (counter : Tid → Nat) (s s' : State T Tid) : Prop :=
  ∃ labels, (servingMachine T rcWidth counter).Run s labels s'

namespace ServingRun

private theorem refl (s : State T Tid) : ServingRun rcWidth counter s s := ⟨[], .nil s⟩

private theorem trans {s'' : State T Tid} (h : ServingRun rcWidth counter s s')
    (h' : ServingRun rcWidth counter s' s'') : ServingRun rcWidth counter s s'' := by
  obtain ⟨labels, hrun⟩ := h
  obtain ⟨labels', hrun'⟩ := h'
  exact ⟨labels ++ labels', hrun.append hrun'⟩

private theorem reachable (h : ServingRun rcWidth counter s s')
    (hreach : (machine T rcWidth counter).Reachable s) :
    (machine T rcWidth counter).Reachable s' := by
  obtain ⟨labels, hrun⟩ := h
  exact hreach.run hrun.of_restrict

end ServingRun

/-- The other threads stand still while one goes. -/
theorem Goes.servingRun {a b : Shared T × Pc} (h : Goes rcWidth (counter t) a b) {pcs : Tid → Pc}
    (hpc : pcs t = a.2) :
    ServingRun rcWidth counter ⟨a.1, pcs⟩ ⟨b.1, Function.update pcs t b.2⟩ := by
  induction h with
  | refl =>
    rw [← hpc, Function.update_eq_self]
    exact .refl _
  | @tail b c _ hstep ih =>
    obtain ⟨label, hstep⟩ := hstep
    have hself : Function.update pcs t b.2 t = b.2 := Function.update_self ..
    have hnext : Next rcWidth counter ⟨b.1, Function.update pcs t b.2⟩ (t, label) ⟨c.1, _⟩ :=
      .step t label c.1 c.2 (by simpa only [hself] using hstep)
    rw [Function.update_idem] at hnext
    refine ih.trans ⟨[(t, label)], .single ⟨hnext, fun x hx ↦ ?_⟩⟩
    change Function.update pcs t b.2 x = .idle at hx
    by_cases hxt : x = t
    · subst hxt
      rw [hself.symm.trans hx] at hstep
      cases hstep
    · rw [Function.update_of_ne hxt] at hx
      exact (Function.update_of_ne hxt _ _).trans hx

/-- Threads with a property lose it one after the other, and none gets another one. -/
theorem exists_drained {P Q : Pc → Prop} (hreach : (machine T rcWidth counter).Reachable s)
    (hfinite : {t | P (s.pcs t)}.Finite) (hnone : ∀ t, ¬ Q (s.pcs t))
    (hgoes : ∀ s : State T Tid, (machine T rcWidth counter).Reachable s →
      (∀ t, ¬ Q (s.pcs t)) → ∀ t, P (s.pcs t) →
      ∃ shared pc, Goes rcWidth (counter t) (s.shared, s.pcs t) (shared, pc) ∧ ¬ P pc ∧ ¬ Q pc) :
    ∃ s', ServingRun rcWidth counter s s' ∧ ∀ t, ¬ P (s'.pcs t) ∧ ¬ Q (s'.pcs t) := by
  -- by induction on the number of threads with the property
  generalize hn : {t | P (s.pcs t)}.ncard = n
  induction n using Nat.strong_induction_on generalizing s with
  | _ n ih =>
    by_cases hall : ∀ t, ¬ P (s.pcs t)
    · exact ⟨s, .refl s, fun t ↦ ⟨hall t, hnone t⟩⟩
    · obtain ⟨t, ht⟩ := not_forall_not.mp hall
      obtain ⟨shared, pc, hrun, hP, hQ⟩ := hgoes s hreach hnone t ht
      have hserving : ServingRun rcWidth counter s ⟨shared, Function.update s.pcs t pc⟩ :=
        hrun.servingRun rfl
      have hsub : {x | P (Function.update s.pcs t pc x)} ⊂ {x | P (s.pcs x)} := by
        refine ⟨fun x ↦ of_update hP, fun hle ↦ hP ?_⟩
        have hself : P (Function.update s.pcs t pc t) := hle ht
        rwa [Function.update_self] at hself
      obtain ⟨s', hrest, hend⟩ := ih _ (hn ▸ Set.ncard_lt_ncard hsub hfinite)
        (hserving.reachable hreach) (hfinite.subset hsub.subset)
        (fun x hx ↦ hnone x (of_update hQ hx)) rfl
      exact ⟨s', hserving.trans hrest, hend⟩

omit [DecidableEq Tid] in
/-- Without a thread in it every count is zero. -/
theorem Counts.eq_zero {pcs : Tid → Pc} {refCounts : Nat → Nat} (h : Counts counter pcs refCounts)
    (hnone : ∀ t, ¬ (pcs t).Counted) (k : Nat) : refCounts k = 0 := by
  rw [h.eq_ncard, Set.ncard_eq_zero (h.finite k)]
  exact Set.eq_empty_of_forall_notMem fun t ht ↦ hnone t ht.2

omit [DecidableEq Tid] in
/-- Without a writer the flag is clear. -/
theorem Live.free (h : Live rcWidth s) (hnone : ∀ t, ¬ (s.pcs t).Exclusive) :
    s.shared.excLocked = false := by
  refine Bool.eq_false_of_not_eq_true fun hset ↦ ?_
  obtain ⟨t, ht⟩ := h.locked hset
  exact hnone t ht

omit [DecidableEq Tid] in
/-- Without a writer the data is in the cell. -/
theorem Inv.data_ne_none (h : Inv rcWidth counter s) (hnone : ∀ t, ¬ (s.pcs t).Exclusive) :
    s.shared.data ≠ none := by
  rw [ne_eq, h.data]
  rintro ⟨t, ht⟩
  refine hnone t ?_
  rw [ht]
  trivial

omit [DecidableEq Tid] in
-- A lock that no thread is in has its first state again, with the data it has now.
private theorem eq_initialState (hinv : Inv rcWidth counter s) (hlive : Live rcWidth s)
    (hidle : ∀ t, s.pcs t = .idle) : ∃ val, s = initialState val := by
  have hout : ∀ {P : Pc → Prop}, ¬ P .idle → ∀ t, ¬ P (s.pcs t) := by
    intro P hP t ht
    rw [hidle t] at ht
    exact hP ht
  have hfree := hlive.free (hout id)
  have hzero : s.shared.refCounts = fun _ ↦ 0 := funext (hinv.counts.eq_zero (hout id))
  obtain ⟨val, hval⟩ := Option.ne_none_iff_exists'.mp (hinv.data_ne_none (hout id))
  obtain ⟨⟨data, excLocked, refCounts⟩, pcs⟩ := s
  obtain rfl : pcs = fun _ ↦ .idle := funext hidle
  obtain rfl : data = some val := hval
  obtain rfl : excLocked = false := hfree
  obtain rfl : refCounts = fun _ ↦ 0 := hzero
  exact ⟨val, rfl⟩

/-- All threads leave the lock. -/
theorem exists_initialState (hfew : FewThreads counter)
    (hreach : (machine T rcWidth counter).Reachable s) :
    ∃ val, ServingRun rcWidth counter s (initialState val) := by
  have hnonempty : Nonempty T := by
    obtain ⟨_, _, ⟨val, rfl⟩, _⟩ := hreach
    exact ⟨val⟩
  have hfinite : ∀ {s : State T Tid} {P : Pc → Prop}, (machine T rcWidth counter).Reachable s →
      ¬ P .idle → {t | P (s.pcs t)}.Finite := by
    intro s P hreach hP
    refine (live_of_reachable hfew hreach).finite.subset fun t ht hidle ↦ hP ?_
    rw [← hidle]
    exact ht
  -- first the readers leave the counts
  obtain ⟨s₁, hrun₁, hs₁⟩ := exists_drained (P := Pc.Counted) (Q := fun _ ↦ False) hreach
    (hfinite hreach id) (fun _ ↦ id) fun s _ _ t ht ↦ by
      obtain ⟨shared, pc, hgoes, hout⟩ := exists_goes_uncounted rcWidth (counter t) s.shared ht
      exact ⟨shared, pc, hgoes, hout, id⟩
  have hreach₁ := hrun₁.reachable hreach
  -- then the writer passes
  obtain ⟨s₂, hrun₂, hs₂⟩ := exists_drained (P := Pc.Exclusive) (Q := Pc.Counted) hreach₁
    (hfinite hreach₁ id) (fun t ↦ (hs₁ t).1) fun s hreach hnone t ht ↦ by
      have hinv := inv_of_reachable hreach
      obtain ⟨shared, hgoes⟩ := exists_goes_idle_of_exclusive (k := counter t)
        (hinv.counts.eq_zero hnone) ht ((live_of_reachable hfew hreach).pending t)
        (hinv.data_eq_none_iff ht).mp
      exact ⟨shared, .idle, hgoes, id, id⟩
  have hreach₂ := hrun₂.reachable hreach₁
  -- then nobody is in the way of the others
  obtain ⟨s₃, hrun₃, hs₃⟩ := exists_drained (P := (· ≠ .idle))
    (Q := fun pc ↦ pc.Counted ∨ pc.Exclusive) hreach₂
    (hfinite (P := (· ≠ .idle)) hreach₂ fun hne ↦ hne rfl)
    (fun t ↦ not_or.mpr ⟨(hs₂ t).2, (hs₂ t).1⟩) fun s hreach hnone t _ ↦ by
      have hinv := inv_of_reachable hreach
      have hlive := live_of_reachable hfew hreach
      have hexc : ∀ x, ¬ (s.pcs x).Exclusive := fun x hx ↦ hnone x (.inr hx)
      obtain ⟨shared, hgoes⟩ : ∃ shared,
          Goes rcWidth (counter t) (s.shared, s.pcs t) (shared, .idle) := exists_goes_idle
        (hinv.counts.eq_zero fun x hx ↦ hnone x (.inl hx)) (hlive.free hexc)
        (hinv.data_ne_none hexc) (fun hx ↦ hnone t (.inl hx)) (hexc t) (hlive.stuck t)
      exact ⟨shared, .idle, hgoes, not_not.mpr rfl, not_or.mpr ⟨id, id⟩⟩
  have hreach₃ := hrun₃.reachable hreach₂
  obtain ⟨val, rfl⟩ := eq_initialState (inv_of_reachable hreach₃)
    (live_of_reachable hfew hreach₃) fun t ↦ not_not.mp (hs₃ t).1
  exact ⟨val, hrun₁.trans (hrun₂.trans hrun₃)⟩

/-! ## The guards -/

/-- A thread on its way to a guard gets it, is still on its way, or is stuck. -/
theorem Next.awaits {label : Tid × Label T} {guard : Pc}
    (hstep : Next rcWidth counter s label s') (hawaits : (s.pcs t).awaits = some guard) :
    s'.pcs t = guard ∨ (s'.pcs t).awaits = some guard ∨ s'.pcs t = .stuck := by
  have hother : ∀ {x : Tid} {shared : Shared T} {pc : Pc}, t ≠ x →
      ((⟨shared, Function.update s.pcs x pc⟩ : State T Tid).pcs t).awaits = some guard := by
    intro x shared pc hne
    rw [show (⟨shared, Function.update s.pcs x pc⟩ : State T Tid).pcs t = s.pcs t from
      Function.update_of_ne hne _ _]
    exact hawaits
  cases hstep with
  | acquireRead x hpc | acquireWrite x hpc =>
    refine .inr (.inl (hother ?_))
    rintro rfl
    rw [hpc] at hawaits
    cases hawaits
  | step x label shared pc hstep =>
    by_cases hne : t = x
    · subst hne
      simpa only [Function.update_self] using hstep.awaits hawaits
    · exact .inr (.inl (hother hne))

/-- A thread that left the lock had its guard. -/
theorem exists_guard (hfew : FewThreads counter) {labels : List (Tid × Label T)} {guard : Pc}
    (hrun : (servingMachine T rcWidth counter).Run s labels s')
    (hreach : (machine T rcWidth counter).Reachable s)
    (hawaits : (s.pcs t).awaits = some guard) (hidle : s'.pcs t = .idle) :
    ∃ s'', ServingRun rcWidth counter s s'' ∧ s''.pcs t = guard := by
  induction hrun with
  | nil =>
    rw [hidle] at hawaits
    cases hawaits
  | @cons s s₁ s' label labels hstep _ ih =>
    have hreach₁ := hreach.step hstep.1
    have hfirst : ServingRun rcWidth counter s s₁ := ⟨[label], .single hstep⟩
    rcases hstep.1.awaits hawaits with hguard | hgoes | hstuck
    · exact ⟨s₁, hfirst, hguard⟩
    · obtain ⟨s'', hrest, hguard⟩ := ih hreach₁ hgoes hidle
      exact ⟨s'', hfirst.trans hrest, hguard⟩
    · exact absurd hstuck ((live_of_reachable hfew hreach₁).stuck t)

/-- As long as fewer threads use a count than it can count, no thread gets stuck, and from every
reachable state of the lock the threads inside of it lead, without another call: each one that
waits to its guard, and all of them out of the lock, which is then as a new one. -/
theorem rwLock_serves_threads (rcWidth : Nat) (counter : Tid → Nat) (hfew : FewThreads counter)
    (s : State T Tid) (hreach : (machine T rcWidth counter).Reachable s) :
    (∀ t, s.pcs t ≠ .stuck) ∧
    (∀ t guard, (s.pcs t).awaits = some guard →
      ∃ labels s', (servingMachine T rcWidth counter).Run s labels s' ∧ s'.pcs t = guard) ∧
    ∃ labels val, (servingMachine T rcWidth counter).Run s labels (initialState val) := by
  obtain ⟨val, labels, hrun⟩ := exists_initialState hfew hreach
  refine ⟨(live_of_reachable hfew hreach).stuck, fun t guard hawaits ↦ ?_, labels, val, hrun⟩
  obtain ⟨s', ⟨labels', hrun'⟩, hguard⟩ := exists_guard hfew hrun hreach hawaits rfl
  exact ⟨labels', s', hrun', hguard⟩

end Liveness

/-- A reader has its guard and a writer waits for it. -/
theorem rwLock_serves_threads_waiting : ∃ s : State Nat (Fin 2),
    (machine Nat 2 Fin.val).Reachable s ∧ s.pcs 0 = .sharedGuard ∧ s.pcs 1 = .excPending 0 ∧
    (∃ labels s', (servingMachine Nat 2 Fin.val).Run s labels s' ∧ s'.pcs 1 = .excGuard) ∧
    ∃ labels val, (servingMachine Nat 2 Fin.val).Run s labels (initialState val) := by
  have hinit : (machine Nat 2 Fin.val).Reachable
      (initialState 7 : State Nat (Fin 2)) := .of_init ⟨7, rfl⟩
  have hread := hinit.step (.acquireRead (0 : Fin 2) rfl (by decide))
  have hload := hread.step (.step (0 : Fin 2) _ _ _ .loadCount)
  have hadd := hload.step (.step (0 : Fin 2) _ _ _ (.addCount 0 rfl))
  have hcheck := hadd.step (.step (0 : Fin 2) _ _ _ .checkExc)
  have hwrite := hcheck.step (.acquireWrite (1 : Fin 2) rfl)
  have hlock := hwrite.step (.step (1 : Fin 2) _ _ _ (.lockExc rfl))
  obtain ⟨_, hguard, hfree⟩ :=
    rwLock_serves_threads 2 Fin.val (fewThreads_of_injective Fin.val_injective) _ hlock
  exact ⟨_, hlock, rfl, rfl, hguard 1 .excGuard rfl, hfree⟩

end RwLock

end NrKernel.NodeReplication
