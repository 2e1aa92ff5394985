import NrKernel.Lib.Tokens
import NrKernel.NodeReplication.RwLock
import NrKernel.NodeReplication.RwLockSpec

/-!
# The lock implements its protocol

Every access of the atomics and the cell is a transition of `RwLockSpec` or none: the threads of
the lock have the tokens of the protocol, a thread that counted itself a pending one, a reader the
shared guard with the value in the cell, a writer the pending or the exclusive guard. The rest of
the module is what this and the invariant of the lock give along a run: which value a reader
borrows, and that the counts neither overflow nor go below zero.
-/

namespace NrKernel.NodeReplication

open Lib

universe u v

namespace RwLock

variable {T : Type u} {Tid : Type v}

/-! ## The state of the protocol -/

/-- The thread counted itself and has not got the guard. -/
def Pc.Pending : Pc → Prop
  | .sharedPending => True
  | .sharedAbandon => True
  | _ => False

section Machine

variable [DecidableEq Tid]

variable (T) in
/-- The lock with the callers that `new` and `release_write` ask for: the data put into the cell
satisfies the user invariant (`exec/rwlock.rs:151–156`, `468–473`). -/
def userMachine (userInv : Set T) (rcWidth : Nat) (counter : Tid → Nat) :
    Machine (State T Tid) (Tid × Label T) where
  init := fun s ↦ 0 < rcWidth ∧ ∃ val ∈ userInv, s = initialState val
  step := fun s label s' ↦
    Next rcWidth counter s label s' ∧ ∀ val, label.2 = .put val → val ∈ userInv

private theorem userMachine_refines (userInv : Set T) (rcWidth : Nat) (counter : Tid → Nat) :
    Refines (userMachine T userInv rcWidth counter) (machine T rcWidth counter) id
      fun _ label ↦ label where
  init := by
    rintro s ⟨_, val, _, hs⟩
    exact ⟨val, hs⟩
  step := fun _ _ _ _ hstep ↦ hstep.1

end Machine

/-- The transitions of the protocol an access stands for: a value is taken out of the cell with
the exclusive guard. -/
def Shows : Label T → List (RwLockSpec.Label T) → Prop
  | .internal, ls => ls.length ≤ 1
  | .borrow _, ls => ls = []
  | .take val, ls => ls = [.excFinish val]
  | .put _, ls => ls = []

/-- The state of the protocol a lock and its threads stand for. -/
structure Implements (userInv : Set T) (rcWidth : Nat) (counter : Tid → Nat) (s : State T Tid)
    (a : RwLockSpec.State T) : Prop where
  user_inv : a.userInv = userInv
  width : a.rcWidth = rcWidth
  data_inv : ∀ val, s.shared.data = some val → val ∈ userInv
  exc_locked : a.excLocked = s.shared.excLocked
  ref_counts : ∀ k, k < rcWidth → a.refCounts k = some (s.shared.refCounts k : Int)
  exc_pending : ∀ t idx, s.pcs t = .excPending idx → a.excPending = some (idx : Int)
  exc_guard : ∀ t, (s.pcs t).Owning → a.excGuard = some ()
  storage : (∀ t, ¬ (s.pcs t).Owning) → a.storage = s.shared.data
  shared_pending : TokensOf Pc.Pending s.pcs (fun t ↦ (counter t : Int)) a.sharedPending
  shared_guard : ∀ val, s.shared.data = some val →
    TokensOf (· = .sharedGuard) s.pcs (fun t ↦ ((counter t : Int), val)) a.sharedGuard

private theorem Pc.Pending.counted {pc : Pc} (h : pc.Pending) : pc.Counted := by
  cases pc <;> trivial

/-! ## Simulation -/

/-- The counts follow one that changes. -/
theorem Implements.insert_count {userInv : Set T} {rcWidth : Nat} {counter : Tid → Nat}
    {s : State T Tid} {a : RwLockSpec.State T} (h : Implements userInv rcWidth counter s a)
    {i rc : Nat} {n : Int} (hn : n = rc) :
    ∀ k, k < rcWidth →
      a.refCounts.insert i n k =
        some ((Function.update s.shared.refCounts i rc k : Nat) : Int) := by
  intro k hk
  by_cases hki : k = i
  · subst hki
    rw [PMap.insert_self, Function.update_self, hn]
  · rw [Function.update_of_ne hki, PMap.insert_of_ne _ _ fun heq ↦ hki (Int.ofNat_inj.mp heq)]
    exact h.ref_counts k hk

section Rules

variable [DecidableEq Tid] {userInv : Set T} {rcWidth : Nat} {counter : Tid → Nat}
  {s : State T Tid} {a : RwLockSpec.State T} {t : Tid} {pc : Pc}

/-- The rule for a thread that neither holds nor waits for the write guard. -/
theorem Implements.reader (h : Implements userInv rcWidth counter s a)
    (hold : ¬ (s.pcs t).Exclusive) (hnew : ¬ pc.Exclusive) {refCounts : Nat → Nat}
    {counts : PMap Int Int} {pending : Multiset Int} {guards : Multiset (Int × T)}
    (hcounts : ∀ k, k < rcWidth → counts k = some (refCounts k : Int))
    (hpending : TokensOf Pc.Pending (Function.update s.pcs t pc) (fun t ↦ (counter t : Int))
      pending)
    (hguards : ∀ val, s.shared.data = some val →
      TokensOf (· = .sharedGuard) (Function.update s.pcs t pc)
        (fun t ↦ ((counter t : Int), val)) guards) :
    Implements userInv rcWidth counter
      ⟨{ s.shared with refCounts := refCounts }, Function.update s.pcs t pc⟩
      { a with refCounts := counts, sharedPending := pending, sharedGuard := guards } := by
  refine ⟨h.user_inv, h.width, h.data_inv, h.exc_locked, hcounts, fun x idx hx ↦ ?_,
    fun x hx ↦ h.exc_guard x (of_update (fun hown ↦ hnew hown.exclusive) hx),
    fun hnone ↦ h.storage fun x hx ↦ ?_, hpending, hguards⟩
  · refine h.exc_pending x idx (of_update (P := (· = .excPending idx)) ?_ hx)
    rintro rfl
    exact hnew trivial
  · have hxt : x ≠ t := by
      rintro rfl
      exact hold hx.exclusive
    exact hnone x (by simpa only [Function.update_of_ne hxt] using hx)

/-- A thread that stays outside of the counts goes on. -/
theorem Implements.same (h : Implements userInv rcWidth counter s a)
    (hold : ¬ (s.pcs t).Exclusive) (hnew : ¬ pc.Exclusive)
    (hpending : pc.Pending ↔ (s.pcs t).Pending)
    (hguard : pc = .sharedGuard ↔ s.pcs t = .sharedGuard) :
    Implements userInv rcWidth counter ⟨s.shared, Function.update s.pcs t pc⟩ a :=
  h.reader hold hnew h.ref_counts (h.shared_pending.update_same hpending)
    fun val hval ↦ (h.shared_guard val hval).update_same hguard

/-- The rule for a thread on its way to, at or after the write guard. -/
theorem Implements.writer (h : Implements userInv rcWidth counter s a)
    (hother : ∀ x, x ≠ t → ¬ (s.pcs x).Exclusive) (hold : ¬ (s.pcs t).Counted)
    (hnew : ¬ pc.Counted) {data storage : Option T} {excLocked locked : Bool}
    {excPending : Option Int} {excGuard : Option Unit} (hlocked : locked = excLocked)
    (hinv : ∀ val, data = some val → val ∈ userInv)
    (hpending : ∀ idx, pc = .excPending idx → excPending = some (idx : Int))
    (howning : pc.Owning → excGuard = some ()) (hstorage : ¬ pc.Owning → storage = data)
    (hguards : ∀ val, data = some val →
      TokensOf (· = .sharedGuard) s.pcs (fun t ↦ ((counter t : Int), val)) a.sharedGuard) :
    Implements userInv rcWidth counter
      ⟨{ s.shared with data := data, excLocked := excLocked }, Function.update s.pcs t pc⟩
      { a with
        excLocked := locked
        excPending := excPending
        excGuard := excGuard
        storage := storage } := by
  have hexc : ∀ x, (Function.update s.pcs t pc x).Exclusive → x = t := by
    intro x hx
    by_contra hxt
    rw [Function.update_of_ne hxt] at hx
    exact hother x hxt hx
  have hguard : pc = .sharedGuard ↔ s.pcs t = .sharedGuard := by
    refine iff_of_false ?_ fun heq ↦ hold (heq ▸ trivial)
    rintro rfl
    exact hnew trivial
  refine ⟨h.user_inv, h.width, hinv, hlocked, h.ref_counts, fun x idx hx ↦ ?_, fun x hx ↦ ?_,
    fun hnone ↦ hstorage ?_, h.shared_pending.update_same ?_,
    fun val hval ↦ (hguards val hval).update_same hguard⟩
  · change Function.update s.pcs t pc x = .excPending idx at hx
    obtain rfl := hexc x (by rw [hx]; trivial)
    rw [Function.update_self] at hx
    exact hpending idx hx
  · change (Function.update s.pcs t pc x).Owning at hx
    obtain rfl := hexc x hx.exclusive
    rw [Function.update_self] at hx
    exact howning hx
  · have hself := hnone t
    change ¬ (Function.update s.pcs t pc t).Owning at hself
    rwa [Function.update_self] at hself
  · exact iff_of_false (fun hp ↦ hnew hp.counted) fun hp ↦ hold hp.counted

/-- Every access of a thread is one transition of the protocol or none. -/
theorem Step.simulates {label : Label T} {shared : Shared T}
    (hstep : Step rcWidth (counter t) s.shared (s.pcs t) label shared pc)
    (hinv : Inv rcWidth counter s) (ha : RwLockSpec.Inv a)
    (h : Implements userInv rcWidth counter s a)
    (hput : ∀ val, label = .put val → val ∈ userInv) :
    ∃ ls b, Shows label ls ∧ (RwLockSpec.machine T).Run a ls b ∧
      Implements userInv rcWidth counter ⟨shared, Function.update s.pcs t pc⟩ b := by
  have hothers := hinv.others (t := t)
  have hvalid := hinv.valid t
  have howned := h.exc_guard t
  have hasked := h.exc_pending t
  generalize hpc : s.pcs t = old at hstep hothers hvalid howned hasked
  -- a thread that waits for the write guard is the only one to take the value
  have hstored : old.Exclusive → ¬ old.Owning → a.storage = s.shared.data := by
    intro hexc hown
    refine h.storage fun x hx ↦ ?_
    by_cases hxt : x = t
    · rw [hxt, hpc] at hx
      exact hown hx
    · exact hothers hexc x hxt hx.exclusive
  have hsame : ∀ {pc : Pc}, ¬ old.Exclusive → ¬ pc.Exclusive → (pc.Pending ↔ old.Pending) →
      (pc = .sharedGuard ↔ old = .sharedGuard) →
      ∃ ls b, Shows (.internal : Label T) ls ∧ (RwLockSpec.machine T).Run a ls b ∧
        Implements userInv rcWidth counter ⟨s.shared, Function.update s.pcs t pc⟩ b := by
    intro pc hold hnew hpend hguard
    exact ⟨[], a, Nat.zero_le 1, .nil a, h.same (by rwa [hpc]) hnew (by rwa [hpc]) (by rwa [hpc])⟩
  cases hstep with
  | loadCount =>
    refine hsame id ?_ ?_ ?_
    · split <;> exact id
    · split <;> exact Iff.rfl
    · split <;> exact iff_of_false nofun nofun
  | addCount rc hrc =>
    have hcount := h.ref_counts _ (hvalid trivial)
    rw [hrc] at hcount
    refine ⟨[_], _, Nat.le_refl 1, .single (.sharedStart _ _ hcount), h.reader
      (by rw [hpc]; exact id) id (h.insert_count rfl)
      (h.shared_pending.update_add (by rw [hpc]; exact id) trivial)
      fun val hval ↦ (h.shared_guard val hval).update_same ?_⟩
    rw [hpc]
    exact iff_of_false nofun nofun
  | addCountFail rc hrc => exact hsame id id Iff.rfl (iff_of_false nofun nofun)
  | checkExc =>
    by_cases hlocked : s.shared.excLocked = true
    · rw [if_pos hlocked]
      exact hsame id id Iff.rfl (iff_of_false nofun nofun)
    · rw [if_neg hlocked]
      have hfree : a.excLocked = false := by
        rw [h.exc_locked]
        exact Bool.eq_false_of_not_eq_true hlocked
      have hstorage : a.storage = s.shared.data :=
        h.storage fun x hx ↦ hlocked (hinv.locked x hx.exclusive)
      obtain ⟨val, hval⟩ := ha.exists_storage (ha.no_writer hfree).2
      have hdata := hstorage.symm.trans hval
      obtain ⟨pending, hcons, htokens⟩ :=
        h.shared_pending.update_remove .sharedGuard (by rw [hpc]; trivial) id
      refine ⟨[_], _, Nat.le_refl 1,
        .single (.sharedFinish _ val pending hfree hcons fun y hy ↦ ?_),
        h.reader (by rw [hpc]; exact id) id h.ref_counts htokens fun val' hval' ↦ ?_⟩
      · exact Option.some.inj (hval.symm.trans hy)
      · cases hdata.symm.trans hval'
        exact (h.shared_guard val hdata).update_add (by rw [hpc]; exact nofun) rfl
  | abandon =>
    have hcount := h.ref_counts _ (hvalid trivial)
    obtain ⟨pending, hcons, htokens⟩ :=
      h.shared_pending.update_remove .sharedLoad (by rw [hpc]; trivial) id
    have hpos := ha.count_pos hcount (.inl (by rw [hcons]; exact Multiset.mem_cons_self _ _))
    refine ⟨[_], _, Nat.le_refl 1, .single (.sharedAbandon _ _ pending hcount hpos hcons), h.reader
      (by rw [hpc]; exact id) id (h.insert_count (by omega)) htokens
      fun val hval ↦ (h.shared_guard val hval).update_same ?_⟩
    rw [hpc]
    exact iff_of_false nofun nofun
  | borrow val hdata =>
    rw [← hpc, Function.update_eq_self]
    exact ⟨[], a, rfl, .nil a, h⟩
  | releaseRead =>
    have hcount := h.ref_counts _ (hvalid trivial)
    obtain ⟨val, hval⟩ := hinv.exists_data hpc
    obtain ⟨guards, hcons, htokens⟩ := (h.shared_guard val hval).update_remove .idle hpc nofun
    have hpos := ha.count_pos hcount
      (.inr ⟨_, by rw [hcons]; exact Multiset.mem_cons_self _ _, rfl⟩)
    refine ⟨[_], _, Nat.le_refl 1, .single (.sharedRelease _ _ guards hcons hcount), h.reader
      (by rw [hpc]; exact id) id (h.insert_count (by omega)) (h.shared_pending.update_same ?_)
      fun val' hval' ↦ ?_⟩
    · rw [hpc]
      exact Iff.rfl
    · cases hval.symm.trans hval'
      exact htokens
  | lockExc hfree =>
    have hnone : ∀ x, ¬ (s.pcs x).Exclusive := by
      intro x hx
      rw [hinv.locked x hx] at hfree
      cases hfree
    exact ⟨[_], _, Nat.le_refl 1, .single (.excStart (h.exc_locked.trans hfree)), h.writer
      (fun x _ ↦ hnone x) (by rw [hpc]; exact id) id rfl h.data_inv
      (fun idx heq ↦ by cases heq; rfl) False.elim
      (fun _ ↦ h.storage fun x hx ↦ hnone x hx.exclusive) h.shared_guard⟩
  | lockExcFail hlocked =>
    rw [← hpc, Function.update_eq_self]
    exact ⟨[], a, Nat.zero_le 1, .nil a, h⟩
  | checkCount idx hidx =>
    have hcount := h.ref_counts idx hidx
    by_cases hzero : s.shared.refCounts idx = 0
    · rw [if_pos hzero]
      rw [hzero] at hcount
      exact ⟨[_], _, Nat.le_refl 1, .single (.excCheckCount _ (hasked idx rfl) hcount), h.writer
        (hothers trivial) (by rw [hpc]; exact id) id h.exc_locked h.data_inv
        (fun i heq ↦ by cases heq; rfl) False.elim (fun _ ↦ hstored trivial id) h.shared_guard⟩
    · rw [if_neg hzero, ← hpc, Function.update_eq_self]
      exact ⟨[], a, Nat.zero_le 1, .nil a, h⟩
  | take val hdata =>
    have hstorage := (hstored trivial id).trans hdata
    have hlast := hasked rcWidth rfl
    rw [← h.width] at hlast
    exact ⟨[_], _, rfl, .single (.excFinish val hlast fun y hy ↦
      Option.some.inj (hstorage.symm.trans hy)), h.writer (hothers trivial) (by rw [hpc]; exact id)
      id h.exc_locked nofun nofun (fun _ ↦ rfl) (absurd trivial) nofun⟩
  | put val =>
    have hguard := howned trivial
    refine ⟨[], a, rfl, .nil a, h.writer (hothers trivial) (by rw [hpc]; exact id) id h.exc_locked
      (fun val' heq ↦ ?_) nofun (fun _ ↦ hguard) (absurd trivial) fun val' _ ↦ ?_⟩
    · cases heq
      exact hput val rfl
    · -- nobody reads while the guard is out
      rw [ha.no_reader hguard]
      refine .empty fun x hx ↦ hinv.not_owning hx (?_ : (s.pcs t).Owning)
      rw [hpc]
      trivial
  | unlockExc =>
    have hdata : s.shared.data ≠ none := by
      rw [ne_eq, hinv.data_eq_none_iff (t := t) (by rw [hpc]; trivial), hpc]
      exact nofun
    obtain ⟨val, hval⟩ := Option.ne_none_iff_exists'.mp hdata
    have hval' := h.data_inv val hval
    rw [← h.user_inv] at hval'
    exact ⟨[_], _, Nat.le_refl 1, .single (.excRelease val hval' (howned trivial)), h.writer
      (hothers trivial) (by rw [hpc]; exact id) id rfl h.data_inv nofun False.elim
      (fun _ ↦ hval.symm) h.shared_guard⟩

end Rules

section Simulation

variable {userInv : Set T} {rcWidth : Nat} {counter : Tid → Nat}

private theorem implements_initialState {val : T} (hval : val ∈ userInv) :
    Implements userInv rcWidth counter (initialState val)
      (RwLockSpec.initialState rcWidth val userInv) where
  user_inv := rfl
  width := rfl
  data_inv := by
    rintro _ ⟨⟩
    exact hval
  exc_locked := rfl
  ref_counts := fun k hk ↦ if_pos ⟨Int.natCast_nonneg k, Int.ofNat_lt.mpr hk⟩
  exc_pending := nofun
  exc_guard := fun _ h ↦ h.elim
  storage := fun _ ↦ rfl
  shared_pending := .empty fun _ ↦ id
  shared_guard := fun _ _ ↦ .empty fun _ ↦ nofun

/-- A reachable lock stands for a reachable state of the protocol. -/
def Simulates [DecidableEq Tid] (userInv : Set T) (rcWidth : Nat) (counter : Tid → Nat)
    (s : State T Tid) (a : RwLockSpec.State T) : Prop :=
  (userMachine T userInv rcWidth counter).Reachable s ∧ (RwLockSpec.machine T).Reachable a ∧
    Implements userInv rcWidth counter s a

/-- The lock implements its protocol. -/
theorem forwardSim [DecidableEq Tid] (userInv : Set T) (rcWidth : Nat) (counter : Tid → Nat) :
    ForwardSim (userMachine T userInv rcWidth counter) (RwLockSpec.machine T)
      (fun label ls ↦ Shows label.2 ls) (Simulates userInv rcWidth counter) where
  init := by
    rintro s ⟨hpos, val, hval, rfl⟩
    have hinit : (RwLockSpec.machine T).init (RwLockSpec.initialState rcWidth val userInv) :=
      ⟨rcWidth, val, userInv, Int.ofNat_lt.mpr hpos, hval, rfl⟩
    exact ⟨_, hinit, .of_init ⟨hpos, val, hval, rfl⟩, .of_init hinit,
      implements_initialState hval⟩
  step := by
    rintro s label s' a ⟨hreach, ha, h⟩ hstep
    have hreach' := hreach.step hstep
    have hinv := inv_of_reachable ((userMachine_refines userInv rcWidth counter).reachable hreach)
    suffices hnext : ∃ ls b, Shows label.2 ls ∧ (RwLockSpec.machine T).Run a ls b ∧
        Implements userInv rcWidth counter s' b by
      obtain ⟨ls, b, hshows, hrun, himplements⟩ := hnext
      exact ⟨ls, b, hshows, hrun, hreach', ha.run hrun, himplements⟩
    obtain ⟨hnext, hput⟩ := hstep
    cases hnext with
    | acquireRead t hpc hvalid =>
      refine ⟨[], a, Nat.zero_le 1, .nil a, h.same ?_ id ?_ ?_⟩
      · rw [hpc]
        exact id
      · rw [hpc]
        exact Iff.rfl
      · rw [hpc]
        exact iff_of_false nofun nofun
    | acquireWrite t hpc =>
      refine ⟨[], a, Nat.zero_le 1, .nil a, h.same ?_ id ?_ ?_⟩
      · rw [hpc]
        exact id
      · rw [hpc]
        exact Iff.rfl
      · rw [hpc]
        exact iff_of_false nofun nofun
    | step t label shared pc hstep =>
      exact hstep.simulates hinv (RwLockSpec.inv_of_reachable ha) h hput

end Simulation

/-! ## Values and counts -/

/-- The data in the cell after one more access, when it is there. -/
def putBack (last : T) : Tid × Label T → T
  | (_, .put val) => val
  | _ => last

/-- The value the last `release_write` put back, or the first one. -/
def lastPut (val : T) (labels : List (Tid × Label T)) : T := labels.foldl putBack val

private theorem lastPut_snoc (val : T) (labels : List (Tid × Label T)) (label : Tid × Label T) :
    lastPut val (labels ++ [label]) = putBack (lastPut val labels) label :=
  List.foldl_concat ..

/-- No count is past the largest one, and a thread that adds itself saw a smaller one. -/
structure Bounded (s : State T Tid) : Prop where
  counts : ∀ k, s.shared.refCounts k ≤ maxRc
  adds : ∀ t rc, s.pcs t = .sharedAdd rc → rc < maxRc

/-- A thread in its count makes it positive. -/
theorem Counts.pos {counter : Tid → Nat} {pcs : Tid → Pc} {refCounts : Nat → Nat} {t : Tid}
    (h : Counts counter pcs refCounts) (ht : (pcs t).Counted) : 0 < refCounts (counter t) := by
  rw [h.eq_ncard, Set.ncard_pos (h.finite _)]
  exact ⟨t, rfl, ht⟩

section Runs

variable [DecidableEq Tid] {rcWidth : Nat} {counter : Tid → Nat} {s s' : State T Tid}
  {label : Tid × Label T} {last val : T}

/-- The cell has what was put back last, or nothing. -/
theorem data_next (h : ∀ x, s.shared.data = some x → x = last)
    (hstep : Next rcWidth counter s label s') :
    ∀ x, s'.shared.data = some x → x = putBack last label := by
  cases hstep with
  | acquireRead | acquireWrite => exact h
  | step t label shared pc hstep =>
    generalize s.pcs t = old at hstep
    cases hstep with
    | take => exact nofun
    | put val =>
      rintro _ ⟨⟩
      rfl
    | _ => exact h

private theorem Bounded.next (h : Bounded s) (hstep : Next rcWidth counter s label s') :
    Bounded s' := by
  -- the counts stay, and only a thread that has read its count goes on to add itself
  have hupdate : ∀ {shared : Shared T} {t : Tid} {pc : Pc},
      (∀ k, shared.refCounts k ≤ maxRc) → (∀ rc, pc = .sharedAdd rc → rc < maxRc) →
      Bounded ⟨shared, Function.update s.pcs t pc⟩ := by
    intro shared t pc hcounts hpc
    refine ⟨hcounts, fun x rc hx ↦ ?_⟩
    by_cases hxt : x = t
    · subst hxt
      exact hpc rc ((Function.update_self _ _ _).symm.trans hx)
    · exact h.adds x rc ((Function.update_of_ne hxt _ _).symm.trans hx)
  have hset : ∀ {k n : Nat}, n ≤ maxRc → ∀ i, (s.shared.setCount k n).refCounts i ≤ maxRc := by
    intro k n hn i
    by_cases hi : i = k
    · subst hi
      simpa only [Shared.setCount, Function.update_self] using hn
    · simp only [Shared.setCount, Function.update_of_ne hi]
      exact h.counts i
  cases hstep with
  | acquireRead | acquireWrite => exact hupdate h.counts nofun
  | step t label shared pc hstep =>
    have hadd := h.adds t
    generalize s.pcs t = old at hstep hadd
    cases hstep with
    | loadCount =>
      refine hupdate h.counts fun rc hrc ↦ ?_
      split at hrc
      · cases hrc
      · next hne =>
        cases hrc
        exact Nat.lt_of_le_of_ne (h.counts _) hne
    | addCount rc hrc => exact hupdate (hset (hadd rc rfl)) nofun
    | checkExc =>
      refine hupdate h.counts ?_
      split <;> exact nofun
    | abandon | releaseRead => exact hupdate (hset ((Nat.sub_le _ _).trans (h.counts _))) nofun
    | borrow | addCountFail | lockExc | lockExcFail | checkCount | take | put | unlockExc =>
      exact hupdate h.counts nofun

/-- What holds along a run of the lock from a value. -/
theorem facts_of_run {labels : List (Tid × Label T)}
    (hrun : (machine T rcWidth counter).Run (initialState val) labels s) :
    Inv rcWidth counter s ∧ Bounded s ∧ ∀ x, s.shared.data = some x → x = lastPut val labels := by
  refine ⟨inv_of_reachable ⟨_, labels, ⟨val, rfl⟩, hrun⟩, ?_⟩
  have hstart : Bounded (initialState val : State T Tid) ∧
      ∀ x, (initialState val : State T Tid).shared.data = some x →
        x = lastPut val ([] : List (Tid × Label T)) :=
    ⟨⟨fun _ ↦ Nat.zero_le _, nofun⟩, fun x hx ↦ (Option.some.inj hx).symm⟩
  refine hrun.history (I := fun labels s ↦ Bounded s ∧
    ∀ x, s.shared.data = some x → x = lastPut val labels)
      (fun labels s label s' h hstep ↦ ?_) hstart
  rw [lastPut_snoc]
  exact ⟨h.1.next hstep, data_next h.2 hstep⟩

end Runs

/-- The lock implements its protocol for any number of threads and counts: every access is one
transition of `RwLockSpec` or none. In every run of the lock, a thread with the read guard
excludes the writers that took the data or put it back without clearing the flag; the cell of a
reader, and of a writer that has seen all counts, has the value put back last, or the first one,
and this is what they get; no count exceeds the largest one, also after another access, and a
thread that takes itself out of its count is counted in it. -/
theorem rwLock_implements_rwLockSpec [DecidableEq Tid] (rcWidth : Nat) (counter : Tid → Nat) :
    (∀ userInv : Set T, ForwardSim (userMachine T userInv rcWidth counter) (RwLockSpec.machine T)
      (fun label ls ↦ Shows label.2 ls) (Simulates userInv rcWidth counter)) ∧
    ∀ (val : T) (labels : List (Tid × Label T)) (s : State T Tid),
      (machine T rcWidth counter).Run (initialState val) labels s →
      (∀ t t', s.pcs t = .sharedGuard → ¬ (s.pcs t').Owning) ∧
      (∀ t, s.pcs t = .sharedGuard ∨ s.pcs t = .excPending rcWidth →
        s.shared.data = some (lastPut val labels)) ∧
      (∀ t x s', Next rcWidth counter s (t, .borrow x) s' →
        x = lastPut val labels ∧ ∀ t', ¬ (s.pcs t').Owning) ∧
      (∀ t x s', Next rcWidth counter s (t, .take x) s' → x = lastPut val labels) ∧
      (∀ label s', Next rcWidth counter s label s' → ∀ k, s'.shared.refCounts k ≤ maxRc) ∧
      ∀ t, s.pcs t = .sharedAbandon ∨ s.pcs t = .sharedGuard →
        0 < s.shared.refCounts (counter t) := by
  refine ⟨fun userInv ↦ forwardSim userInv rcWidth counter, fun val labels s hrun ↦ ?_⟩
  obtain ⟨hinv, hbounded, hlast⟩ := facts_of_run hrun
  have hexists : ∀ {x}, s.shared.data = some x → s.shared.data = some (lastPut val labels) := by
    intro x hx
    rw [hx, hlast x hx]
  refine ⟨fun t t' ht ↦ hinv.not_owning ht, fun t ht ↦ ?_, fun t x s' hstep ↦ ?_,
    fun t x s' hstep ↦ ?_, fun label s' hstep ↦ (hbounded.next hstep).counts, fun t ht ↦ ?_⟩
  · rcases ht with hguard | hpending
    · obtain ⟨x, hx⟩ := hinv.exists_data hguard
      exact hexists hx
    · have hdata : s.shared.data ≠ none := by
        rw [ne_eq, hinv.data_eq_none_iff (t := t) (by rw [hpending]; trivial), hpending]
        exact nofun
      obtain ⟨x, hx⟩ := Option.ne_none_iff_exists'.mp hdata
      exact hexists hx
  · cases hstep with
    | step _ _ shared pc hstep =>
      generalize hpc : s.pcs t = old at hstep
      cases hstep with
      | borrow _ hdata => exact ⟨hlast x hdata, fun t' ↦ hinv.not_owning hpc⟩
  · cases hstep with
    | step _ _ shared pc hstep =>
      generalize s.pcs t = old at hstep
      cases hstep with
      | take _ hdata => exact hlast x hdata
  · refine hinv.counts.pos ?_
    rcases ht with hpc | hpc
    · rw [hpc]
      trivial
    · rw [hpc]
      trivial

end RwLock

end NrKernel.NodeReplication
