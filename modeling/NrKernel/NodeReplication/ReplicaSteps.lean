import NrKernel.NodeReplication.NrLogRequests
import NrKernel.NodeReplication.ReplicaInvariant

/-!
# Steps of a replica

Every access keeps the invariant. Two rules do the bookkeeping: one for a thread that has no
round or one that does not have the combiner lock, and one for the thread that has the combiner
lock. A step then only says what becomes of its own slot and round.
-/

namespace NrKernel.NodeReplication

open Lib

universe u

namespace Replica

variable {DT : Dispatch.{u}}

section Rules

variable {n : NodeId} {log log' : NrLog.State DT} {node node' : Node DT} {tid i : ThreadId}
  {rid : ReqId} {r : Round DT} {t : Thread DT}

/-- A slot that is not in progress holds no request. -/
theorem Node.not_holds (h : ¬ (node.contexts i).InProgress) (rid : ReqId) : ¬ node.Holds i rid :=
  fun hholds ↦ h hholds.1

/-- A slot whose flag is zero is not in progress. -/
theorem not_inProgress_of_zero {context : Context DT} (h : context.atomic = 0) :
    ¬ context.InProgress :=
  fun hprog ↦ absurd (hprog.atomic.symm.trans h) Nat.one_ne_zero

/-- What a slot holds depends on its context and its thread's phase. -/
theorem Node.holds_congr (hcontext : node'.contexts i = node.contexts i)
    (hphase : (node'.threads i).phase = (node.threads i).phase) :
    node'.Holds i rid ↔ node.Holds i rid := by
  rw [Node.Holds, Node.Holds, hcontext, hphase]

/-- A thread that stays in its phase holds what it held. -/
theorem Node.holds_setThread (hphase : t.phase = (node.threads tid).phase) :
    (node.setThread tid t).Holds i rid ↔ node.Holds i rid := by
  refine Node.holds_congr rfl ?_
  by_cases hi : i = tid
  · subst hi
    simp only [Node.setThread, Function.update_self, hphase]
  · simp only [Node.setThread, Function.update_of_ne hi]

/-- A round without the combiner lock has collected nothing. -/
theorem Round.Progress.empty (h : r.Progress n log node) (howns : ¬ r.pc.Owns) :
    r.slots = [] ∧ r.heldIds = [] := by
  unfold Round.Progress at h
  unfold Round.slots Round.heldIds
  cases hpc : r.pc with
  | loadCombiner =>
    simp only [hpc] at h ⊢
    exact ⟨by rw [h.1]; rfl, h.2.1⟩
  | casCombiner =>
    simp only [hpc] at h ⊢
    exact ⟨by rw [h.1]; rfl, h.2.1⟩
  | _ =>
    rw [hpc] at howns
    exact absurd trivial howns

/-- A round without the combiner lock does not depend on the state. -/
theorem Round.Progress.start (h : r.Progress n log node) (howns : ¬ r.pc.Owns) :
    r.Progress n log' node' := by
  unfold Round.Progress at h ⊢
  cases hpc : r.pc with
  | loadCombiner => simpa only [hpc] using h
  | casCombiner => simpa only [hpc] using h
  | _ =>
    rw [hpc] at howns
    exact absurd trivial howns

/-- One thread's state changes only its own place in the lock. -/
theorem lock_update (threads : ThreadId → Thread DT) (tid : ThreadId) (t : Thread DT) :
    (fun j ↦ (Function.update threads tid t j).lock) =
      Function.update (fun j ↦ (threads j).lock) tid t.lock := by
  funext j
  by_cases hj : j = tid
  · subst hj
    rw [Function.update_self, Function.update_self]
  · rw [Function.update_of_ne hj, Function.update_of_ne hj]

/-- The lock of a replica whose thread stays where it is in the lock. -/
theorem NodeInv.lock_same (h : NodeInv n log node) {pc : RwLock.Pc}
    (hpc : pc = (node.threads tid).lock) :
    RwLock.Inv maxThreadsPerReplica id
      ⟨node.lock, Function.update (fun j ↦ (node.threads j).lock) tid pc⟩ := by
  rw [hpc, Function.update_eq_self]
  exact h.lock

/-- The lock of a replica whose thread makes an access of the lock. -/
theorem NodeInv.lock_step (h : NodeInv n log node) {old pc : RwLock.Pc}
    {label : RwLock.Label DT.View} {lock : RwLock.Shared DT.View}
    (hold : (node.threads tid).lock = old)
    (hstep : RwLock.Step maxThreadsPerReplica tid node.lock old label lock pc) :
    RwLock.Inv maxThreadsPerReplica id
      ⟨lock, Function.update (fun j ↦ (node.threads j).lock) tid pc⟩ := by
  subst hold
  exact h.lock.step hstep

/-- The rule for a thread that does not have the combiner lock. -/
theorem NodeInv.client (h : NodeInv n log node)
    (hold : ∀ r, (node.threads tid).round = some r → ¬ r.pc.Owns)
    (hnew : ∀ r, t.round = some r → ¬ r.pc.Owns ∧ r.Progress n log' node')
    (hcombiner : node'.combiner = node.combiner)
    (hcontexts : ∀ j, j ≠ tid → node'.contexts j = node.contexts j)
    (hthreads : node'.threads = Function.update node.threads tid t)
    (hlock : RwLock.Inv maxThreadsPerReplica id
      ⟨node'.lock, Function.update (fun j ↦ (node.threads j).lock) tid t.lock⟩)
    (hdata : node'.lock.data = node.lock.data) (hlog : SameCombiner n log log')
    (hsame : ∀ j rid, j ≠ tid → (node.threads j).phase.rid = some rid → SameRequest log log' rid)
    (hholds : ∀ rid, node'.Holds tid rid ↔ node.Holds tid rid)
    (hkept : ∀ rid, node.Holds tid rid → SameRequest log log' rid ∧
      (node'.contexts tid).batch = (node.contexts tid).batch)
    (hslot : SlotInv n log' (node'.contexts tid) t.phase)
    (hactive : ∀ rid, t.phase.rid = some rid →
      n < log.numReplicas ∧ tid < maxThreadsPerReplica)
    (hworking : ∀ r, t.round = some r →
      (∃ rid, t.phase.rid = some rid) ∧ t.phase.lock = .idle) :
    NodeInv n log' node' := by
  have hself : node'.threads tid = t := by rw [hthreads, Function.update_self]
  have hne : ∀ j, j ≠ tid → node'.threads j = node.threads j :=
    fun j hj ↦ by rw [hthreads, Function.update_of_ne hj]
  have hiff : ∀ j rid, node'.Holds j rid ↔ node.Holds j rid := by
    intro j rid
    by_cases hj : j = tid
    · subst hj
      exact hholds rid
    · exact Node.holds_congr (hcontexts j hj) (congrArg Thread.phase (hne j hj))
  -- a round with the combiner lock is another thread's
  have howner : ∀ j r, (node'.threads j).round = some r → r.pc.Owns →
      (node.threads j).round = some r := by
    intro j r hr howns
    by_cases hj : j = tid
    · subst hj
      rw [hself] at hr
      exact absurd howns (hnew r hr).1
    · rwa [← hne j hj]
  have howner' : ∀ j r, (node.threads j).round = some r → r.pc.Owns →
      (node'.threads j).round = some r := by
    intro j r hr howns
    by_cases hj : j = tid
    · subst hj
      exact absurd howns (hold r hr)
    · rwa [hne j hj]
  have hticket : ∀ j rid, node.Holds j rid → SameRequest log log' rid ∧
      (node'.contexts j).batch = (node.contexts j).batch := by
    intro j rid hheld
    by_cases hj : j = tid
    · subst hj
      exact hkept rid hheld
    · exact ⟨hsame j rid hj hheld.rid_eq, by rw [hcontexts j hj]⟩
  refine ⟨?_, fun j j' r r' hr hr' howns howns' ↦ ?_, fun j r hr howns ↦ ?_, fun j r hr ↦ ?_,
    fun j r hr ↦ ?_, fun j rid hheld ↦ ?_, fun j ↦ ?_, fun j rid hrid ↦ ?_, fun j r hr ↦ ?_,
    fun view hn hview ↦ ?_, fun s hs ↦ ?_⟩
  · rw [hthreads, lock_update]
    exact hlock
  · exact h.owner j j' r r' (howner j r hr howns) (howner j' r' hr' howns') howns howns'
  · rw [hcombiner]
    exact h.owned j r (howner j r hr howns) howns
  · by_cases howns : r.pc.Owns
    · exact (h.held j r (howner j r hr howns)).imp fun i rid hx ↦ (hiff i rid).mpr hx
    · have hempty : r.slots = [] ∧ r.heldIds = [] := by
        by_cases hj : j = tid
        · subst hj
          rw [hself] at hr
          exact (hnew r hr).2.empty howns
        · rw [hne j hj] at hr
          exact (h.progress j r hr).empty howns
      rw [hempty.1, hempty.2]
      exact .nil
  · by_cases howns : r.pc.Owns
    · have hr' := howner j r hr howns
      refine (h.progress j r hr').frame (fun rid hrid ↦ ?_) hlog.threads fun i hi ↦ ?_
      · obtain ⟨i, _, hheld⟩ := h.exists_waiting hr' hrid
        exact (hticket i rid hheld).1.2
      · obtain ⟨rid, hheld⟩ := NrLog.exists_of_forall₂ (h.held j r hr') hi
        exact (hticket i rid hheld).2
    · by_cases hj : j = tid
      · subst hj
        rw [hself] at hr
        exact (hnew r hr).2
      · rw [hne j hj] at hr
        exact (h.progress j r hr).start howns
  · obtain ⟨k, r, hr, hslot⟩ := h.inProgress j rid ((hiff j rid).mp hheld)
    have howns : r.pc.Owns := by
      by_contra hno
      rw [((h.progress k r hr).empty hno).1] at hslot
      cases hslot
    exact ⟨k, r, howner' k r hr howns, hslot⟩
  · by_cases hj : j = tid
    · subst hj
      rw [hself]
      exact hslot
    · rw [hne j hj, hcontexts j hj]
      exact (h.slots j).frame fun rid hrid ↦ .inl (hsame j rid hj hrid)
  · rw [hlog.numReplicas]
    by_cases hj : j = tid
    · subst hj
      rw [hself] at hrid
      exact hactive rid hrid
    · rw [hne j hj] at hrid
      exact h.active j rid hrid
  · by_cases hj : j = tid
    · subst hj
      rw [hself] at hr ⊢
      exact hworking r hr
    · rw [hne j hj] at hr ⊢
      exact h.working j r hr
  · rw [hlog.data]
    rw [hlog.numReplicas] at hn
    rw [hdata] at hview
    exact h.data view hn hview
  · rw [hlog.threads] at hs
    refine (h.thread s hs).imp id ?_
    rintro ⟨j, r, hr, hexec⟩
    exact ⟨j, r, howner' j r hr hexec.owns, hexec⟩

/-- The rule for the thread that has the combiner lock, gets it or gives it up. -/
theorem NodeInv.combiner (h : NodeInv n log node)
    (hfirst : ∀ j r, j ≠ tid → (node.threads j).round = some r → ¬ r.pc.Owns)
    (hthreads : node'.threads = Function.update node.threads tid t)
    (hphase : t.phase = (node.threads tid).phase) (hrounds : (node.threads tid).round ≠ none)
    (hcombiner : ∀ r, t.round = some r → node'.combiner ≠ 0)
    (hlock : RwLock.Inv maxThreadsPerReplica id
      ⟨node'.lock, Function.update (fun j ↦ (node.threads j).lock) tid t.lock⟩)
    (hheld : ∀ r, t.round = some r → List.Forall₂ node'.Holds r.slots r.heldIds)
    (hprogress : ∀ r, t.round = some r → r.Progress n log' node')
    (hinProgress : ∀ i rid, node'.Holds i rid → ∃ r, t.round = some r ∧ i ∈ r.slots)
    (hslots : ∀ i, SlotInv n log' (node'.contexts i) (node.threads i).phase)
    (hreplicas : log'.numReplicas = log.numReplicas)
    (hdata : ∀ view, n < log.numReplicas → node'.lock.data = some view →
      log'.data n = some view)
    (hthread : ∀ s, log'.threads n = some s → s.pc = .idle ∨
      ∃ r, t.round = some r ∧ r.pc.Executes) : NodeInv n log' node' := by
  have hself : node'.threads tid = t := by rw [hthreads, Function.update_self]
  have hne : ∀ j, j ≠ tid → node'.threads j = node.threads j :=
    fun j hj ↦ by rw [hthreads, Function.update_of_ne hj]
  have hphases : ∀ j, (node'.threads j).phase = (node.threads j).phase := by
    intro j
    by_cases hj : j = tid
    · subst hj
      rw [hself, hphase]
    · rw [hne j hj]
  have hmine : ∀ j r, (node'.threads j).round = some r → r.pc.Owns → j = tid := by
    intro j r hr howns
    by_contra hj
    rw [hne j hj] at hr
    exact hfirst j r hj hr howns
  refine ⟨?_, fun j j' r r' hr hr' howns howns' ↦ ?_, fun j r hr howns ↦ ?_, fun j r hr ↦ ?_,
    fun j r hr ↦ ?_, fun j rid hheld ↦ ?_, fun j ↦ ?_, fun j rid hrid ↦ ?_, fun j r hr ↦ ?_,
    fun view hn hview ↦ ?_, fun s hs ↦ ?_⟩
  · rw [hthreads, lock_update]
    exact hlock
  · exact (hmine j r hr howns).trans (hmine j' r' hr' howns').symm
  · obtain rfl := hmine j r hr howns
    rw [hself] at hr
    exact hcombiner r hr
  · by_cases hj : j = tid
    · subst hj
      rw [hself] at hr
      exact hheld r hr
    · rw [hne j hj] at hr
      have hempty := (h.progress j r hr).empty (hfirst j r hj hr)
      rw [hempty.1, hempty.2]
      exact .nil
  · by_cases hj : j = tid
    · subst hj
      rw [hself] at hr
      exact hprogress r hr
    · rw [hne j hj] at hr
      exact (h.progress j r hr).start (hfirst j r hj hr)
  · obtain ⟨r, hr, hslot⟩ := hinProgress j rid hheld
    exact ⟨tid, r, hself ▸ hr, hslot⟩
  · rw [hphases]
    exact hslots j
  · rw [hphases] at hrid
    rw [hreplicas]
    exact h.active j rid hrid
  · rw [hphases]
    by_cases hj : j = tid
    · subst hj
      obtain ⟨r₀, hr₀⟩ := Option.ne_none_iff_exists'.mp hrounds
      exact h.working j r₀ hr₀
    · rw [hne j hj] at hr
      exact h.working j r hr
  · rw [hreplicas] at hn
    exact hdata view hn hview
  · refine (hthread s hs).imp id ?_
    rintro ⟨r, hr, hexec⟩
    exact ⟨tid, r, hself ▸ hr, hexec⟩

end Rules

section Clients

variable {n m : NodeId} {tid : ThreadId} {log log' : NrLog.State DT} {node node' : Node DT}
  {phase : Phase DT} {label : Label DT} {t : Thread DT} {rid : ReqId}

/-- A client's step leaves every node's combiner thread of the log alone. -/
theorem ClientStep.sameCombiner (h : ClientStep n tid log node phase label log' node' t) :
    SameCombiner m log log' := by
  cases h <;> exact ⟨rfl, rfl, rfl⟩

/-- A client's step changes the record of its own request only. -/
theorem ClientStep.sameRequest (h : ClientStep n tid log node phase label log' node' t)
    (hold : phase.rid ≠ some rid) (hnew : t.phase.rid ≠ some rid) :
    SameRequest log log' rid := by
  have hinsert : ∀ {β : Type u} {f : PMap ReqId β} {rid' : ReqId} {x : β}, rid ≠ rid' →
      f.insert rid' x rid = f rid := fun hne ↦ PMap.insert_of_ne _ _ hne
  have hne : ∀ {rid' : ReqId}, (some rid' : Option ReqId) ≠ some rid → rid ≠ rid' :=
    fun hx heq ↦ hx (congrArg some heq.symm)
  cases h with
  | startRead => exact ⟨hinsert (hne hnew), rfl⟩
  | startWrite => exact ⟨rfl, hinsert (hne hnew)⟩
  | getVersionUpperBound => exact ⟨hinsert (hne hold), rfl⟩
  | synced => exact ⟨hinsert (hne hold), rfl⟩
  | dispatch => exact ⟨hinsert (hne hold), rfl⟩
  | doneRead => exact ⟨PMap.remove_of_ne _ (hne hold), rfl⟩
  | doneWrite => exact ⟨rfl, PMap.remove_of_ne _ (hne hold)⟩
  | _ => exact ⟨rfl, rfl⟩

/-- A thread goes on with its request, is done with it or takes a fresh one. -/
theorem ClientStep.rid_cases (h : ClientStep n tid log node phase label log' node' t)
    (hrid : t.phase.rid = some rid) :
    phase.rid = some rid ∨ log.readers rid = none ∧ log.tickets rid = none := by
  cases h with
  | startRead rid' op hn htid hreaders htickets =>
    cases hrid
    exact .inr ⟨hreaders, htickets⟩
  | startWrite rid' op hn htid hreaders htickets =>
    cases hrid
    exact .inr ⟨hreaders, htickets⟩
  | doneRead => cases hrid
  | doneWrite => cases hrid
  | noResponse rid' iter hatomic =>
    have hrid' : (pollAgain rid' iter : Thread DT).phase.rid = some rid' := by
      unfold pollAgain
      split <;> rfl
    exact .inl (hrid'.symm.trans hrid)
  | _ => exact .inl hrid

/-- Polling again keeps waiting for the same request. -/
theorem pollAgain_phase (rid : ReqId) (iter : Nat) :
    ∃ iter', (pollAgain rid iter : Thread DT).phase = .loadResponse rid iter' := by
  unfold pollAgain
  split
  · exact ⟨0, rfl⟩
  · exact ⟨iter + 1, rfl⟩

/-- A round that polling starts is at its start. -/
theorem pollAgain_round (rid : ReqId) (iter : Nat) {r : Round DT}
    (h : (pollAgain rid iter : Thread DT).round = some r) : r = .start DT := by
  unfold pollAgain at h
  split at h <;> cases h
  rfl

private theorem Round.start_progress {r : Round DT} (h : r = .start DT) :
    ¬ r.pc.Owns ∧ r.Progress n log node := by
  subst h
  exact ⟨id, rfl, rfl, rfl⟩

/-- The rule for a thread whose slot is empty before and not in progress after its step. -/
theorem NodeInv.clientIdle (h : NodeInv n log node) (hthread : node.threads tid = ⟨phase, none⟩)
    (hstart : ∀ r, t.round = some r → r = .start DT)
    (hcombiner : node'.combiner = node.combiner)
    (hcontexts : ∀ j, j ≠ tid → node'.contexts j = node.contexts j)
    (hthreads : node'.threads = node.threads)
    (hlock : RwLock.Inv maxThreadsPerReplica id
      ⟨node'.lock, Function.update (fun j ↦ (node.threads j).lock) tid t.lock⟩)
    (hdata : node'.lock.data = node.lock.data)
    (hstep : ClientStep n tid log node phase label log' node' t)
    (hsame : ∀ j rid, j ≠ tid → (node.threads j).phase.rid = some rid → SameRequest log log' rid)
    (hatomic : (node.contexts tid).atomic = 0) (hfree : ¬ (node'.contexts tid).InProgress)
    (hslot : SlotInv n log' (node'.contexts tid) t.phase)
    (hactive : ∀ rid, t.phase.rid = some rid →
      n < log.numReplicas ∧ tid < maxThreadsPerReplica)
    (hworking : ∀ r, t.round = some r →
      (∃ rid, t.phase.rid = some rid) ∧ t.phase.lock = .idle) :
    NodeInv n log' (node'.setThread tid t) := by
  have hnone := Node.not_holds (not_inProgress_of_zero hatomic)
  refine h.client (t := t) (fun r hr ↦ ?_) (fun r hr ↦ Round.start_progress (hstart r hr)) hcombiner
    hcontexts (by rw [Node.setThread, hthreads]) hlock hdata hstep.sameCombiner hsame
    (fun rid ↦ ?_) (fun rid hheld ↦ absurd hheld (hnone rid)) hslot hactive hworking
  · rw [hthread] at hr
    cases hr
  · exact iff_of_false (fun hheld ↦ hfree hheld.1) (hnone rid)

/-- Every access of a thread outside `try_combine` keeps the invariant of its replica. -/
theorem NodeInv.clientStep (h : NodeInv n log node) (hthread : node.threads tid = ⟨phase, none⟩)
    (hstep : ClientStep n tid log node phase label log' node' t)
    (hsame : ∀ j rid, j ≠ tid → (node.threads j).phase.rid = some rid →
      SameRequest log log' rid) : NodeInv n log' (node'.setThread tid t) := by
  have hstep' := hstep
  have hslot := h.slots tid
  have hactive := h.active tid
  have hlock : ∀ t : Thread DT, t.lock = (node.threads tid).lock → RwLock.Inv maxThreadsPerReplica
      id ⟨node.lock, Function.update (fun j ↦ (node.threads j).lock) tid t.lock⟩ :=
    fun t ht ↦ h.lock_same ht
  rw [hthread] at hslot hactive hlock
  cases hstep with
  | startRead rid op hn htid hreaders htickets =>
    exact h.clientIdle hthread nofun rfl (fun _ _ ↦ rfl) rfl (hlock _ rfl) rfl hstep' hsame hslot
      (not_inProgress_of_zero hslot) ⟨hslot, PMap.insert_self _ _ _⟩ (fun _ _ ↦ ⟨hn, htid⟩) nofun
  | startWrite rid op hn htid hreaders htickets =>
    exact h.clientIdle hthread nofun rfl (fun _ _ ↦ rfl) rfl (hlock _ rfl) rfl hstep' hsame hslot
      (not_inProgress_of_zero hslot) ⟨hslot, PMap.insert_self _ _ _⟩ (fun _ _ ↦ ⟨hn, htid⟩) nofun
  | getVersionUpperBound rid op =>
    exact h.clientIdle hthread nofun rfl (fun _ _ ↦ rfl) rfl (hlock _ rfl) rfl hstep' hsame hslot.1
      (not_inProgress_of_zero hslot.1) ⟨hslot.1, PMap.insert_self _ _ _⟩
      (fun _ _ ↦ hactive rid rfl) nofun
  | synced rid op versionUpperBound version hlocal hsynced =>
    refine h.clientIdle hthread nofun rfl (fun _ _ ↦ rfl) rfl ?_ rfl hstep' hsame hslot.1
      (not_inProgress_of_zero hslot.1) ⟨hslot.1, versionUpperBound, PMap.insert_self _ _ _⟩
      (fun _ _ ↦ hactive rid rfl) nofun
    refine h.lock.acquireRead ?_ (hactive rid rfl).2
    simp only [hthread]
    rfl
  | notSynced rid op versionUpperBound version hlocal hsynced =>
    refine h.clientIdle hthread (fun r hr ↦ ?_) rfl (fun _ _ ↦ rfl) rfl (hlock _ rfl) rfl hstep'
      hsame hslot.1 (not_inProgress_of_zero hslot.1) hslot (fun _ _ ↦ hactive rid rfl)
      fun _ _ ↦ ⟨⟨rid, rfl⟩, rfl⟩
    cases hr
    rfl
  | acquireRead rid op pc lock pc' hpc hacc =>
    refine h.clientIdle hthread nofun rfl (fun _ _ ↦ rfl) rfl
      (h.lock_step (congrArg Thread.lock hthread) hacc) ?_ hstep' hsame hslot.1
      (not_inProgress_of_zero hslot.1) hslot (fun _ _ ↦ hactive rid rfl) nofun
    cases hacc <;> rfl
  | dispatch rid op view hacc =>
    exact h.clientIdle hthread nofun rfl (fun _ _ ↦ rfl) rfl (hlock _ rfl) rfl hstep' hsame hslot.1
      (not_inProgress_of_zero hslot.1) ⟨hslot.1, PMap.insert_self _ _ _⟩
      (fun _ _ ↦ hactive rid rfl) nofun
  | releaseRead rid ret lock hacc =>
    refine h.clientIdle hthread nofun rfl (fun _ _ ↦ rfl) rfl
      (h.lock_step (congrArg Thread.lock hthread) hacc) ?_ hstep' hsame hslot.1
      (not_inProgress_of_zero hslot.1) hslot (fun _ _ ↦ hactive rid rfl) nofun
    cases hacc
    rfl
  | doneRead rid ret =>
    exact h.clientIdle hthread nofun rfl (fun _ _ ↦ rfl) rfl (hlock _ rfl) rfl hstep' hsame hslot.1
      (not_inProgress_of_zero hslot.1) hslot.1 nofun nofun
  | enqueueOp rid op =>
    have hzero : (Function.update node.contexts tid
        { node.contexts tid with batch := some ⟨op, none⟩ } tid).atomic = 0 := by
      rw [Function.update_self]
      exact hslot.1
    refine h.clientIdle hthread nofun rfl (fun _ hj ↦ Function.update_of_ne hj _ _) rfl
      (hlock _ rfl) rfl hstep' hsame hslot.1 (not_inProgress_of_zero hzero)
      ⟨hzero, op, ?_, hslot.2⟩ (fun _ _ ↦ hactive rid rfl) nofun
    simp only [Node.setContext, Function.update_self]
  | storePending rid =>
    obtain ⟨hzero, op, hbatch, hticket⟩ := hslot
    refine h.clientIdle hthread (fun r hr ↦ ?_) rfl (fun _ hj ↦ Function.update_of_ne hj _ _) rfl
      (hlock _ rfl) rfl hstep' hsame hzero (fun hprog ↦ ?_) (.inl ⟨?_, ?_, op, ?_, hticket⟩)
      (fun _ _ ↦ hactive rid rfl) fun _ _ ↦ ⟨⟨rid, rfl⟩, rfl⟩
    · cases hr
      rfl
    · have hnone := hprog.update
      simp only [Node.setContext, Function.update_self] at hnone
      cases hnone
    · simp only [Node.setContext, Function.update_self]
    · simp only [Node.setContext, Function.update_self]
    · simp only [Node.setContext, Function.update_self]
      exact hbatch
  | loadResponse rid iter hatomic =>
    have hresp : (node.contexts tid).Responded log rid := by
      rcases hslot with hreq | hprog | hresp
      · exact absurd (hreq.1.symm.trans hatomic) Nat.one_ne_zero
      · exact absurd (hprog.1.atomic.symm.trans hatomic) Nat.one_ne_zero
      · exact hresp
    have hresp' : (Function.update node.contexts tid
        { node.contexts tid with update := none } tid).Responded log rid := by
      rw [Function.update_self]
      exact hresp
    exact h.clientIdle hthread nofun rfl (fun _ hj ↦ Function.update_of_ne hj _ _) rfl
      (hlock _ rfl) rfl hstep' hsame hatomic (not_inProgress_of_zero hresp'.1) hresp'
      (fun _ _ ↦ hactive rid rfl) nofun
  | noResponse rid iter hatomic =>
    obtain ⟨iter', hphase⟩ : ∃ iter', (pollAgain rid iter : Thread DT).phase = _ :=
      pollAgain_phase rid iter
    refine h.client (fun r hr ↦ ?_)
      (fun r hr ↦ Round.start_progress (pollAgain_round rid iter hr)) rfl (fun _ _ ↦ rfl) rfl
      (hlock _ ?_) rfl hstep'.sameCombiner hsame (fun rid' ↦ ?_)
      (fun _ _ ↦ ⟨⟨rfl, rfl⟩, rfl⟩) ?_ (fun rid' hrid' ↦ ?_) fun r hr ↦ ?_
    · rw [hthread] at hr
      cases hr
    · unfold pollAgain
      split <;> rfl
    · simp only [Node.Holds, Node.setThread, Function.update_self, hphase, hthread,
        Phase.loadResponse.injEq]
      simp
    · rw [hphase]
      exact hslot
    · rw [hphase] at hrid'
      exact hactive rid' hrid'
    · rw [hphase]
      exact ⟨⟨rid, rfl⟩, rfl⟩
  | takeResponse rid op ret hbatch =>
    have hzero : (Function.update node.contexts tid
        { node.contexts tid with batch := none } tid).atomic = 0 := by
      rw [Function.update_self]
      exact hslot.1
    obtain ⟨hatomic, op', ret', hbatch', hticket⟩ := hslot
    rw [hbatch] at hbatch'
    cases hbatch'
    exact h.clientIdle hthread nofun rfl (fun _ hj ↦ Function.update_of_ne hj _ _) rfl
      (hlock _ rfl) rfl hstep' hsame hatomic (not_inProgress_of_zero hzero) ⟨hzero, hticket⟩
      (fun _ _ ↦ hactive rid rfl) nofun
  | doneWrite rid ret =>
    exact h.clientIdle hthread nofun rfl (fun _ _ ↦ rfl) rfl (hlock _ rfl) rfl hstep' hsame hslot.1
      (not_inProgress_of_zero hslot.1) hslot.1 nofun nofun

end Clients

end Replica

end NrKernel.NodeReplication
