import NrKernel.NodeReplication.Replica

/-!
# Invariant of a replica

What holds of a replica between any two accesses of its threads: the lock around the data is a
reader-writer lock of these threads, at most one of them is in a round of combining, a slot in
progress is one the round still has to answer, and the log's combiner thread of the node works
only while a round has the data. The conditions are those of the ghost contexts
(`exec/context.rs:437–481`) and of the combiner lock (`exec/replica.rs:559–986`).
-/

namespace NrKernel.NodeReplication

open Lib

universe u

namespace Replica

variable {DT : Dispatch.{u}}

/-! ## Conditions -/

/-- The request a thread works on. -/
def Phase.rid : Phase DT → Option ReqId
  | .idle => none
  | .getVersionUpperBound rid _ => some rid
  | .isReplicaSynced rid _ _ => some rid
  | .acquireRead rid _ _ => some rid
  | .releaseRead rid _ => some rid
  | .readDone rid _ => some rid
  | .enqueueOp rid _ => some rid
  | .storePending rid => some rid
  | .loadResponse rid _ => some rid
  | .takeResponse rid => some rid
  | .writeDone rid _ => some rid

/-- Where a reader is in the lock around the data. -/
def Phase.lock : Phase DT → RwLock.Pc
  | .acquireRead _ _ pc => pc
  | .releaseRead _ _ => .sharedGuard
  | _ => .idle

/-- Where a round is in the lock around the data. -/
def RoundPc.lock : RoundPc → RwLock.Pc
  | .acquireWrite pc => pc
  | .appendExecute => .excGuard
  | .putData => .excGuard
  | .unlockExc => .excRelease
  | _ => .idle

/-- Where a thread is in the lock around the data. -/
def Thread.lock (t : Thread DT) : RwLock.Pc :=
  match t.round with
  | some r => r.pc.lock
  | none => t.phase.lock

/-- The round has the combiner lock. -/
def RoundPc.Owns : RoundPc → Prop
  | .loadCombiner => False
  | .casCombiner => False
  | _ => True

/-- A round at an access of the combiner has the combiner lock. -/
theorem Round.owns_of_eq {r : Round DT} {pc : RoundPc} (hpc : r.pc = pc) (howns : pc.Owns) :
    r.pc.Owns := by
  rw [hpc]
  exact howns

/-- The round has given its operations to the log and not taken the responses. -/
def RoundPc.Executes : RoundPc → Prop
  | .appendExecute => True
  | .putData => True
  | .unlockExc => True
  | _ => False

/-- A round that runs the log has the combiner lock. -/
theorem RoundPc.Executes.owns {pc : RoundPc} (h : pc.Executes) : pc.Owns := by
  cases pc <;> first | exact h.elim | trivial

/-- A round that runs the log has the write lock. -/
theorem RoundPc.Executes.owning {pc : RoundPc} (h : pc.Executes) : pc.lock.Owning := by
  cases pc <;> first | exact h.elim | trivial

/-- A combiner collected the slot and did not answer it (`exec/context.rs:460–463`). -/
structure Context.InProgress (context : Context DT) : Prop where
  atomic : context.atomic = 1
  update : context.update = none

/-- The slot waits to be collected (`exec/context.rs:449–458`). -/
def Context.Requested (context : Context DT) (log : NrLog.State DT) (rid : ReqId) : Prop :=
  context.atomic = 1 ∧ context.update = some rid ∧
    ∃ op, context.batch = some ⟨op, none⟩ ∧ log.tickets rid = some (.pending op)

/-- The slot has the response (`exec/context.rs:465–477`). -/
def Context.Responded (context : Context DT) (log : NrLog.State DT) (rid : ReqId) : Prop :=
  context.atomic = 0 ∧
    ∃ op ret, context.batch = some ⟨op, some ret⟩ ∧ log.tickets rid = some (.answered ret)

/-- The slot of a thread and the log's record of its request fit what the thread is doing. -/
def SlotInv (n : NodeId) (log : NrLog.State DT) (context : Context DT) : Phase DT → Prop
  | .idle => context.atomic = 0
  | .getVersionUpperBound rid op =>
    context.atomic = 0 ∧ log.readers rid = some (.called op n)
  | .isReplicaSynced rid op versionUpperBound =>
    context.atomic = 0 ∧ log.readers rid = some (.syncing op n versionUpperBound)
  | .acquireRead rid op _ =>
    context.atomic = 0 ∧
      ∃ versionUpperBound, log.readers rid = some (.synced op n versionUpperBound)
  | .releaseRead rid ret => context.atomic = 0 ∧ log.readers rid = some (.returned ret)
  | .readDone rid ret => context.atomic = 0 ∧ log.readers rid = some (.returned ret)
  | .enqueueOp rid op => context.atomic = 0 ∧ log.tickets rid = some (.pending op)
  | .storePending rid =>
    context.atomic = 0 ∧
      ∃ op, context.batch = some ⟨op, none⟩ ∧ log.tickets rid = some (.pending op)
  | .loadResponse rid _ =>
    context.Requested log rid ∨ context.InProgress ∧ log.tickets rid ≠ none ∨
      context.Responded log rid
  | .takeResponse rid => context.Responded log rid
  | .writeDone rid ret => context.atomic = 0 ∧ log.tickets rid = some (.answered ret)

/-- The threads whose count is not zero, in a list of counts that starts at a thread
(`exec/replica.rs:838–861`). -/
def occupied : Nat → List Nat → List Nat
  | _, [] => []
  | i, numOps :: rest => if numOps = 0 then occupied (i + 1) rest else i :: occupied (i + 1) rest

/-- The slots a round has collected and not answered. -/
def Round.slots (r : Round DT) : List ThreadId :=
  match r.pc with
  | .respond i _ => occupied i (r.numOpsPerThread.drop i)
  | .storeResponse i _ => occupied i (r.numOpsPerThread.drop i)
  | .releaseCombiner => []
  | _ => occupied 0 r.numOpsPerThread

/-- The requests in these slots. -/
def Round.heldIds (r : Round DT) : List ReqId :=
  match r.pc with
  | .respond _ k => r.requestIds.drop k
  | .storeResponse _ k => r.requestIds.drop k
  | .releaseCombiner => []
  | _ => r.requestIds

/-- The collected requests are known to the log with the operations of the round. -/
def Round.Pending (r : Round DT) (log : NrLog.State DT) : Prop :=
  List.Forall₂ (fun rid op ↦ log.tickets rid = some (.pending op)) r.requestIds r.operations

/-- The requests from the `k`-th on have the responses of the round. -/
def Round.Answered (r : Round DT) (log : NrLog.State DT) (k : Nat) : Prop :=
  List.Forall₂ (fun rid ret ↦ log.tickets rid = some (.answered ret)) (r.requestIds.drop k)
    (r.responses.drop k)

/-- The log's combiner thread of the node has finished the requests of the round. -/
def Round.Finished (r : Round DT) (n : NodeId) (log : NrLog.State DT) : Prop :=
  ∃ t, log.threads n = some t ∧ t.pc = .finished ∧ t.requestIds = r.requestIds ∧
    t.responses = r.responses

/-- The buffers of a round at each of its accesses. -/
def Round.Progress (r : Round DT) (n : NodeId) (log : NrLog.State DT) (node : Node DT) : Prop :=
  match r.pc with
  | .loadCombiner => r.numOpsPerThread = [] ∧ r.requestIds = [] ∧ r.operations = []
  | .casCombiner => r.numOpsPerThread = [] ∧ r.requestIds = [] ∧ r.operations = []
  | .collect i =>
    r.numOpsPerThread.length = i ∧ i ≤ maxThreadsPerReplica ∧ r.Pending log
  | .copyOp i =>
    r.numOpsPerThread.length = i + 1 ∧ i < maxThreadsPerReplica ∧
      i ∈ occupied 0 r.numOpsPerThread ∧ ∃ op resp, (node.contexts i).batch = some ⟨op, resp⟩ ∧
        ({ r with operations := r.operations ++ [op] } : Round DT).Pending log
  | .acquireWrite _ => r.numOpsPerThread.length = maxThreadsPerReplica ∧ r.Pending log
  | .appendExecute =>
    r.numOpsPerThread.length = maxThreadsPerReplica ∧
      ∃ t, log.threads n = some t ∧ t.requestIds = r.requestIds
  | .putData => r.numOpsPerThread.length = maxThreadsPerReplica ∧ r.Finished n log
  | .unlockExc => r.numOpsPerThread.length = maxThreadsPerReplica ∧ r.Finished n log
  | .respond _ k => r.numOpsPerThread.length = maxThreadsPerReplica ∧ r.Answered log k
  | .storeResponse i k =>
    r.numOpsPerThread.length = maxThreadsPerReplica ∧ r.Answered log k ∧
      (∃ numOps, r.numOpsPerThread[i]? = some numOps ∧ numOps ≠ 0) ∧
      ∃ op ret, (node.contexts i).batch = some ⟨op, some ret⟩ ∧ r.responses[k]? = some ret
  | .releaseCombiner => True

/-- The slot is in progress and its thread waits for the response to the request. -/
def Node.Holds (node : Node DT) (i : ThreadId) (rid : ReqId) : Prop :=
  (node.contexts i).InProgress ∧ ∃ iter, (node.threads i).phase = .loadResponse rid iter

/-- What every replica satisfies next to the log. -/
structure NodeInv (n : NodeId) (log : NrLog.State DT) (node : Node DT) : Prop where
  lock : RwLock.Inv maxThreadsPerReplica id ⟨node.lock, fun tid ↦ (node.threads tid).lock⟩
  owner : ∀ tid tid' r r', (node.threads tid).round = some r →
    (node.threads tid').round = some r' → r.pc.Owns → r'.pc.Owns → tid = tid'
  owned : ∀ tid r, (node.threads tid).round = some r → r.pc.Owns → node.combiner ≠ 0
  held : ∀ tid r, (node.threads tid).round = some r →
    List.Forall₂ node.Holds r.slots r.heldIds
  progress : ∀ tid r, (node.threads tid).round = some r → r.Progress n log node
  inProgress : ∀ i rid, node.Holds i rid → ∃ tid r, (node.threads tid).round = some r ∧ i ∈ r.slots
  slots : ∀ tid, SlotInv n log (node.contexts tid) (node.threads tid).phase
  active : ∀ tid rid, (node.threads tid).phase.rid = some rid →
    n < log.numReplicas ∧ tid < maxThreadsPerReplica
  working : ∀ tid r, (node.threads tid).round = some r →
    (∃ rid, (node.threads tid).phase.rid = some rid) ∧ (node.threads tid).phase.lock = .idle
  data : ∀ view, n < log.numReplicas → node.lock.data = some view → log.data n = some view
  thread : ∀ t, log.threads n = some t → t.pc = .idle ∨
    ∃ tid r, (node.threads tid).round = some r ∧ r.pc.Executes

/-- Every replica fits the log, and no two threads work on one request. -/
structure Inv (s : State DT) : Prop where
  nodes : ∀ n, NodeInv n s.log (s.nodes n)
  distinct : ∀ n n' tid tid' rid, ((s.nodes n).threads tid).phase.rid = some rid →
    ((s.nodes n').threads tid').phase.rid = some rid → n = n' ∧ tid = tid'

/-! ## Slots in progress -/

section Occupied

private theorem occupied_append (i : Nat) (counts counts' : List Nat) :
    occupied i (counts ++ counts') = occupied i counts ++ occupied (i + counts.length) counts' := by
  induction counts generalizing i with
  | nil => rfl
  | cons numOps rest ih =>
    have hlength : i + (numOps :: rest).length = i + 1 + rest.length := by
      rw [List.length_cons]
      omega
    rw [List.cons_append, occupied, occupied, ih, hlength]
    split <;> rfl

/-- A slot without operations is not occupied. -/
theorem occupied_snoc_zero (counts : List Nat) :
    occupied 0 (counts ++ [0]) = occupied 0 counts := by
  rw [occupied_append]
  exact List.append_nil _

/-- A slot with an operation is occupied. -/
theorem occupied_snoc_one (counts : List Nat) :
    occupied 0 (counts ++ [1]) = occupied 0 counts ++ [counts.length] := by
  rw [occupied_append, Nat.zero_add]
  rfl

/-- Occupied slots lie in the range that was counted. -/
theorem mem_occupied {i j : Nat} {counts : List Nat} (h : j ∈ occupied i counts) :
    i ≤ j ∧ j < i + counts.length := by
  induction counts generalizing i with
  | nil => cases h
  | cons numOps rest ih =>
    rw [List.length_cons]
    rw [occupied] at h
    split at h
    · have := ih h
      omega
    · rcases List.mem_cons.mp h with rfl | hmem
      · omega
      · have := ih hmem
        omega

/-- No slot is listed twice. -/
theorem nodup_occupied (i : Nat) (counts : List Nat) : (occupied i counts).Nodup := by
  induction counts generalizing i with
  | nil => exact List.nodup_nil
  | cons numOps rest ih =>
    rw [occupied]
    split
    · exact ih (i + 1)
    · refine List.nodup_cons.mpr ⟨fun hmem ↦ ?_, ih (i + 1)⟩
      have := mem_occupied hmem
      omega

/-- There are no more occupied slots than slots. -/
theorem length_occupied_le (i : Nat) (counts : List Nat) :
    (occupied i counts).length ≤ counts.length := by
  induction counts generalizing i with
  | nil => exact Nat.le_refl 0
  | cons numOps rest ih =>
    have := ih (i + 1)
    rw [occupied, List.length_cons]
    split
    · omega
    · rw [List.length_cons]
      omega

/-- A slot without operations is passed over. -/
theorem occupied_drop_of_zero {i : Nat} {counts : List Nat} (h : counts[i]? = some 0) :
    occupied i (counts.drop i) = occupied (i + 1) (counts.drop (i + 1)) := by
  obtain ⟨hlt, heq⟩ := List.getElem?_eq_some_iff.mp h
  rw [List.drop_eq_getElem_cons hlt, occupied, if_pos heq]

/-- A slot with operations comes first. -/
theorem occupied_drop_of_ne_zero {i : Nat} {counts : List Nat} {numOps : Nat}
    (h : counts[i]? = some numOps) (hne : numOps ≠ 0) :
    occupied i (counts.drop i) = i :: occupied (i + 1) (counts.drop (i + 1)) := by
  obtain ⟨hlt, heq⟩ := List.getElem?_eq_some_iff.mp h
  rw [List.drop_eq_getElem_cons hlt, occupied, if_neg (by rwa [heq])]

/-- A slot with operations is occupied. -/
theorem mem_occupied_drop {i : Nat} {counts : List Nat} {numOps : Nat}
    (h : counts[i]? = some numOps) (hne : numOps ≠ 0) : i ∈ occupied i (counts.drop i) := by
  rw [occupied_drop_of_ne_zero h hne]
  exact List.mem_cons_self

end Occupied

section Lists

variable {α β : Type*} {R : α → β → Prop} {as : List α} {bs : List β}

private theorem exists_mem_of_forall₂ (h : List.Forall₂ R as bs) {b : β} (hb : b ∈ bs) :
    ∃ a ∈ as, R a b := by
  induction h with
  | nil => cases hb
  | cons hab _ ih =>
    rcases List.mem_cons.mp hb with rfl | hmem
    · exact ⟨_, List.mem_cons_self, hab⟩
    · obtain ⟨a, ha, hR⟩ := ih hmem
      exact ⟨a, List.mem_cons_of_mem _ ha, hR⟩

/-- A relation may be weakened at the elements of the first list. -/
theorem forall₂_imp_mem {S : α → β → Prop} (h : List.Forall₂ R as bs)
    (himp : ∀ a ∈ as, ∀ b, R a b → S a b) : List.Forall₂ S as bs := by
  have hboth := (List.forall₂_and_left as bs).mpr ⟨fun _ ha ↦ ha, h⟩
  exact hboth.imp fun a b hx ↦ himp a hx.1 b hx.2

/-- In related lists every position has its pair. -/
theorem getElem?_of_forall₂ (h : List.Forall₂ R as bs) {i : Nat} {a : α} (ha : as[i]? = some a) :
    ∃ b, bs[i]? = some b ∧ R a b := by
  induction h generalizing i with
  | nil => cases ha
  | cons hab _ ih =>
    cases i with
    | zero =>
      obtain rfl := Option.some.inj ha
      exact ⟨_, rfl, hab⟩
    | succ i => exact ih ha

/-- Where a relation determines the left element, a list without repetitions is related to one
without repetitions. -/
theorem nodup_of_forall₂ (hinj : ∀ a a' b, R a b → R a' b → a = a') (h : List.Forall₂ R as bs)
    (hnodup : as.Nodup) : bs.Nodup := by
  induction h with
  | nil => exact List.nodup_nil
  | @cons a b as bs hab hrest ih =>
    obtain ⟨hnotin, hnodup⟩ := List.nodup_cons.mp hnodup
    refine List.nodup_cons.mpr ⟨fun hmem ↦ hnotin ?_, ih hnodup⟩
    obtain ⟨a', ha', hab'⟩ := exists_mem_of_forall₂ hrest hmem
    rw [hinj a a' b hab hab']
    exact ha'

end Lists

/-! ## Frame -/

section Frame

variable {n : NodeId} {log log' : NrLog.State DT} {node node' : Node DT} {i : ThreadId}
  {rid : ReqId} {r : Round DT} {phase : Phase DT} {context : Context DT}

/-- The log's record of a request is the same. -/
def SameRequest (log log' : NrLog.State DT) (rid : ReqId) : Prop :=
  log'.readers rid = log.readers rid ∧ log'.tickets rid = log.tickets rid

/-- A held request is the one its thread works on. -/
theorem Node.Holds.rid_eq (h : node.Holds i rid) : (node.threads i).phase.rid = some rid := by
  obtain ⟨_, iter, hphase⟩ := h
  rw [hphase]
  rfl

/-- A slot that is not empty belongs to a thread that waits for its response. -/
theorem SlotInv.waiting (h : SlotInv n log context phase) (hatomic : context.atomic ≠ 0) :
    ∃ rid iter, phase = .loadResponse rid iter ∧
      (context.Requested log rid ∨ context.InProgress ∧ log.tickets rid ≠ none) := by
  cases phase with
  | idle => exact absurd h hatomic
  | takeResponse => exact absurd h.1 hatomic
  | loadResponse rid iter =>
    refine ⟨rid, iter, rfl, ?_⟩
    rcases h with hreq | hprog | hresp
    · exact .inl hreq
    · exact .inr hprog
    · exact absurd hresp.1 hatomic
  | _ => exact absurd h.1 hatomic

/-- The log knows every request a thread works on. -/
theorem SlotInv.known (h : SlotInv n log context phase) (hrid : phase.rid = some rid) :
    log.readers rid ≠ none ∨ log.tickets rid ≠ none := by
  cases phase with
  | idle => cases hrid
  | getVersionUpperBound =>
    cases hrid
    exact .inl (by simp [h.2])
  | isReplicaSynced =>
    cases hrid
    exact .inl (by simp [h.2])
  | acquireRead =>
    cases hrid
    obtain ⟨_, _, hread⟩ := h
    exact .inl (by simp [hread])
  | releaseRead =>
    cases hrid
    exact .inl (by simp [h.2])
  | readDone =>
    cases hrid
    exact .inl (by simp [h.2])
  | enqueueOp =>
    cases hrid
    exact .inr (by simp [h.2])
  | storePending =>
    cases hrid
    obtain ⟨_, _, _, hticket⟩ := h
    exact .inr (by simp [hticket])
  | loadResponse =>
    cases hrid
    rcases h with ⟨_, _, _, _, hticket⟩ | ⟨_, hknown⟩ | ⟨_, _, _, _, hticket⟩
    · exact .inr (by simp [hticket])
    · exact .inr hknown
    · exact .inr (by simp [hticket])
  | takeResponse =>
    cases hrid
    obtain ⟨_, _, _, _, hticket⟩ := h
    exact .inr (by simp [hticket])
  | writeDone =>
    cases hrid
    exact .inr (by simp [h.2])

/-- A thread's condition stays when the log's record of its request does, or its slot is in
progress and the log still knows the request. -/
theorem SlotInv.frame (h : SlotInv n log context phase)
    (hsame : ∀ rid, phase.rid = some rid → SameRequest log log' rid ∨
      context.InProgress ∧ log'.tickets rid ≠ none) : SlotInv n log' context phase := by
  by_cases hprog : context.InProgress
  · have hone : context.atomic ≠ 0 := by
      rw [hprog.atomic]
      exact Nat.one_ne_zero
    obtain ⟨rid, iter, rfl, hslot⟩ := h.waiting hone
    refine .inr (.inl ⟨hprog, ?_⟩)
    rcases hsame rid rfl with ⟨_, hticket⟩ | ⟨_, hknown⟩
    · rw [hticket]
      rcases hslot with ⟨_, _, _, _, hpending⟩ | ⟨_, hknown⟩
      · simp [hpending]
      · exact hknown
    · exact hknown
  · have hkept : ∀ rid, phase.rid = some rid → SameRequest log log' rid :=
      fun rid hrid ↦ (hsame rid hrid).resolve_right fun hx ↦ hprog hx.1
    cases phase with
    | idle => exact h
    | loadResponse rid =>
      have hticket := (hkept rid rfl).2
      simpa only [SlotInv, Context.Requested, Context.Responded, hticket] using h
    | takeResponse rid =>
      have hticket := (hkept rid rfl).2
      simpa only [SlotInv, Context.Responded, hticket] using h
    | enqueueOp rid =>
      have hticket := (hkept rid rfl).2
      simpa only [SlotInv, hticket] using h
    | storePending rid =>
      have hticket := (hkept rid rfl).2
      simpa only [SlotInv, hticket] using h
    | writeDone rid =>
      have hticket := (hkept rid rfl).2
      simpa only [SlotInv, hticket] using h
    | getVersionUpperBound rid | isReplicaSynced rid | acquireRead rid | releaseRead rid
    | readDone rid =>
      have hreader := (hkept rid rfl).1
      simpa only [SlotInv, hreader] using h

private theorem forall₂_tickets {γ : Type u} {rids : List ReqId} {xs : List γ}
    {P : Option (NrLog.Ticket DT) → γ → Prop}
    (hsame : ∀ rid ∈ rids, log'.tickets rid = log.tickets rid)
    (h : List.Forall₂ (fun rid x ↦ P (log.tickets rid) x) rids xs) :
    List.Forall₂ (fun rid x ↦ P (log'.tickets rid) x) rids xs := by
  have hboth := (List.forall₂_and_left rids xs).mpr ⟨hsame, h⟩
  exact hboth.imp fun rid x hx ↦ hx.1 ▸ hx.2

/-- A round goes by the tickets it holds, the cells of its slots and the log's thread. -/
theorem Round.Progress.frame (h : r.Progress n log node)
    (hsame : ∀ rid ∈ r.heldIds, log'.tickets rid = log.tickets rid)
    (hthread : log'.threads n = log.threads n)
    (hbatch : ∀ i ∈ r.slots, (node'.contexts i).batch = (node.contexts i).batch) :
    r.Progress n log' node' := by
  have hpending : (∀ rid ∈ r.requestIds, log'.tickets rid = log.tickets rid) →
      ∀ {operations}, ({ r with operations := operations } : Round DT).Pending log →
        ({ r with operations := operations } : Round DT).Pending log' :=
    fun hids ↦ forall₂_tickets (P := fun x op ↦ x = some (.pending op)) hids
  have hanswered : ∀ {k}, (∀ rid ∈ r.requestIds.drop k, log'.tickets rid = log.tickets rid) →
      r.Answered log k → r.Answered log' k :=
    fun hids ↦ forall₂_tickets (P := fun x ret ↦ x = some (.answered ret)) hids
  unfold Round.Progress at h ⊢
  unfold Round.heldIds at hsame
  unfold Round.slots at hbatch
  cases hpc : r.pc with
  | loadCombiner => simpa only [hpc] using h
  | casCombiner => simpa only [hpc] using h
  | releaseCombiner => simp only
  | collect i =>
    simp only [hpc] at h hsame ⊢
    exact ⟨h.1, h.2.1, hpending hsame h.2.2⟩
  | copyOp i =>
    simp only [hpc] at h hsame hbatch ⊢
    obtain ⟨hlength, hi, hslot, op, resp, hop, hpend⟩ := h
    exact ⟨hlength, hi, hslot, op, resp, (hbatch i hslot).trans hop, hpending hsame hpend⟩
  | acquireWrite pc =>
    simp only [hpc] at h hsame ⊢
    exact ⟨h.1, hpending hsame h.2⟩
  | appendExecute =>
    simp only [hpc] at h ⊢
    rwa [hthread]
  | putData =>
    simp only [hpc, Round.Finished] at h ⊢
    rwa [hthread]
  | unlockExc =>
    simp only [hpc, Round.Finished] at h ⊢
    rwa [hthread]
  | respond i k =>
    simp only [hpc] at h hsame ⊢
    exact ⟨h.1, hanswered hsame h.2⟩
  | storeResponse i k =>
    simp only [hpc] at h hsame hbatch ⊢
    obtain ⟨hlength, hans, ⟨numOps, hnum, hne⟩, op, ret, hop, hret⟩ := h
    exact ⟨hlength, hanswered hsame hans, ⟨numOps, hnum, hne⟩, op, ret,
      (hbatch i (mem_occupied_drop hnum hne)).trans hop, hret⟩

/-- The log's side of a node is the same. -/
structure SameCombiner (n : NodeId) (log log' : NrLog.State DT) : Prop where
  threads : log'.threads n = log.threads n
  data : log'.data n = log.data n
  numReplicas : log'.numReplicas = log.numReplicas

/-- The requests a round holds are those of waiting threads. -/
theorem NodeInv.exists_waiting (h : NodeInv n log node) {tid : ThreadId}
    (hr : (node.threads tid).round = some r) (hrid : rid ∈ r.heldIds) :
    ∃ i ∈ r.slots, node.Holds i rid :=
  exists_mem_of_forall₂ (h.held tid r hr) hrid

/-- A replica stays as it is while the log keeps its side of the node and the records of the
requests of its threads. -/
theorem NodeInv.frame (h : NodeInv n log node) (hcombiner : SameCombiner n log log')
    (hsame : ∀ tid rid, (node.threads tid).phase.rid = some rid → SameRequest log log' rid) :
    NodeInv n log' node where
  lock := h.lock
  owner := h.owner
  owned := h.owned
  held := h.held
  progress := by
    intro tid r hr
    refine (h.progress tid r hr).frame (fun rid hrid ↦ ?_) hcombiner.threads fun _ _ ↦ rfl
    obtain ⟨i, _, hheld⟩ := h.exists_waiting hr hrid
    exact (hsame i rid hheld.rid_eq).2
  inProgress := h.inProgress
  slots := fun tid ↦ (h.slots tid).frame fun rid hrid ↦ .inl (hsame tid rid hrid)
  active := by
    rw [hcombiner.numReplicas]
    exact h.active
  working := h.working
  data := by
    rw [hcombiner.numReplicas, hcombiner.data]
    exact h.data
  thread := by
    rw [hcombiner.threads]
    exact h.thread

end Frame

end Replica

end NrKernel.NodeReplication
