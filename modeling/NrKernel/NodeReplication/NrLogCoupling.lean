import NrKernel.NodeReplication.CyclicBufferInvariant
import NrKernel.NodeReplication.NrLog
import NrKernel.NodeReplication.UnboundedLogInvariant

/-!
# Coupling of the executable log with its two machines

Which state of the unbounded log and of the cyclic buffer goes with a state of the executable
log. Counters, versions and replicas are equal; the alive bits and stored entries are those of
the slots; and each combiner thread's next access says in which phase both machines have its
node. This is the ghost state the code passes around (`exec/log.rs:1676–1870`).
-/

namespace NrKernel.NodeReplication

open Lib

universe u v

namespace NrLog

variable {DT : Dispatch.{u}}

/-- An index lies within the log's entries. -/
theorem index_lt (i : Nat) : index i < logSize := Nat.mod_lt _ (by decide)

/-- The buffer's slot of an index is the code's. -/
theorem logEntryIdx_eq (i : Nat) : CyclicBuffer.logEntryIdx i logSize = index i := by
  rw [CyclicBuffer.logEntryIdx, slot, index, ← Int.natCast_emod, Int.toNat_natCast]

/-- The buffer's alive value of an index is the code's. -/
theorem logEntryAliveValue_eq (i : Nat) :
    CyclicBuffer.logEntryAliveValue i logSize = isAliveValue i := by
  have hcast : (i : Int) / (logSize : Int) % 2 = ((i / logSize % 2 : Nat) : Int) := by
    rw [Int.natCast_emod, Int.natCast_ediv]
    rfl
  rw [CyclicBuffer.logEntryAliveValue, passBit, isAliveValue, hcast, Bool.beq_eq_decide_eq]
  exact decide_eq_decide.mpr (by omega)

section Threads

/-- The collected requests are known to the log but not placed (`exec/log.rs:1724–1744`). -/
def Thread.Requested (t : Thread DT) (updates : PMap ReqId (UnboundedLog.UpdateState DT)) :
    Prop :=
  t.responses = [] ∧
    List.Forall₂ (fun rid op ↦ updates rid = some (.init op)) t.requestIds t.operations

/-- Every collected request has its response (`exec/log.rs:1853–1869`). -/
def Thread.Answered (t : Thread DT) (updates : PMap ReqId (UnboundedLog.UpdateState DT)) :
    Prop :=
  List.Forall₂ (fun rid ret ↦ ∃ idx, updates rid = some (.done ret idx)) t.requestIds t.responses

/-- What holds of requests that a call of `execute` does not work on. -/
def Thread.Waiting (t : Thread DT) (updates : PMap ReqId (UnboundedLog.UpdateState DT)) :
    Return → Prop
  | .append => t.Requested updates
  | .advanceHead => t.Answered updates
  | .combine => t.Answered updates

/-- The requests are placed and none is answered (`exec/log.rs:1837–1851`). -/
def Thread.Placed (t : Thread DT) (phase : UnboundedLog.CombinerState) : Prop :=
  phase = .placed t.requestIds ∧ t.responses = []

/-- Between `append` and the end of `combine`: still placed, or already answered. -/
def Thread.Appended (t : Thread DT) (updates : PMap ReqId (UnboundedLog.UpdateState DT))
    (phase : UnboundedLog.CombinerState) : Prop :=
  t.Placed phase ∨ phase = .ready ∧ t.Answered updates

/-- The queue `execute` works through: the collected requests, of which the responses so far
answer the first ones, or nothing (`exec/log.rs:1381–1424`). -/
def Thread.Queue (t : Thread DT) (updates : PMap ReqId (UnboundedLog.UpdateState DT))
    (ret : Return) (queue : List ReqId) (idx upper : Nat) : Prop :=
  (ret ≠ .append ∧ queue = t.requestIds ∧ idx = t.responses.length ∧
    List.Forall₂ (fun rid res ↦ ∃ i < upper, updates rid = some (.applied res i))
      (t.requestIds.take idx) t.responses) ∨
  (queue = [] ∧ t.Waiting updates ret)

/-- A reserved range is being written; `idx` entries of it are there
(`exec/log.rs:931–976`). -/
def Thread.Appending (t : Thread DT) (nodeId : NodeId)
    (log : PMap Nat (UnboundedLog.LogEntry DT)) (phase : UnboundedLog.CombinerState)
    (buffer : CyclicBuffer.CombinerState DT) (tail idx : Nat) : Prop :=
  t.Placed phase ∧ buffer = .appending (tail + idx) (tail + t.operations.length) ∧
    ∀ i op, t.operations[i]? = some op → log (tail + i) = some ⟨op, nodeId⟩

/-- The phases of both machines at each access of a combiner thread. -/
def Thread.Coupled (numReplicas : Nat) (nodeId : NodeId)
    (log : PMap Nat (UnboundedLog.LogEntry DT))
    (updates : PMap ReqId (UnboundedLog.UpdateState DT)) (slog : Nat → BufferEntry DT)
    (t : Thread DT) (phase : UnboundedLog.CombinerState)
    (buffer : CyclicBuffer.CombinerState DT) : Prop :=
  match t.pc with
  | .idle => phase = .ready ∧ buffer = .idle
  | .appendLoadTail => phase = .ready ∧ buffer = .idle ∧ t.Requested updates
  | .appendLoadHead _ => phase = .ready ∧ buffer = .idle ∧ t.Requested updates
  | .appendReserve tail _ =>
    phase = .ready ∧ t.Requested updates ∧ ∃ observedHead,
      buffer = .advancingTail observedHead ∧ tail + t.operations.length ≤ observedHead + logSize
  | .appendWriteEntry tail idx _ =>
    t.Appending nodeId log phase buffer tail idx ∧ idx < t.operations.length
  | .appendStoreAlive tail idx _ =>
    t.Appending nodeId log phase buffer tail idx ∧ ∃ op, t.operations[idx]? = some op ∧
      (slog (index (tail + idx))).logEntry = some ⟨op, nodeId⟩
  | .advanceLoadHead => t.Appended updates phase ∧ buffer = .idle
  | .advanceLoadTail _ => t.Appended updates phase ∧ buffer = .idle
  | .advanceLoadFirst _ _ => t.Appended updates phase ∧ buffer = .idle
  | .advanceLoadNext _ _ minLocalVersion idx =>
    t.Appended updates phase ∧ buffer = .advancingHead idx minLocalVersion
  | .advanceStoreHead _ minLocalVersion =>
    t.Appended updates phase ∧ buffer = .advancingHead numReplicas minLocalVersion
  | .executeLoadLocal ret =>
    buffer = .idle ∧
      (ret ≠ .append ∧ t.Placed phase ∨ phase = .ready ∧ t.Waiting updates ret)
  | .executeLoadTail ret version =>
    buffer = .reading (.starting version) ∧
      ∃ queue, phase = .loadedLocalVersion queue version ∧ t.Queue updates ret queue 0 0
  | .executeLoadAlive ret version globalTail =>
    version < globalTail ∧ (∃ start, buffer = .reading (.range start globalTail version)) ∧
      ∃ queue idx, phase = .loop queue version idx globalTail ∧
        t.Queue updates ret queue idx globalTail
  | .executeDispatch ret version globalTail =>
    version < globalTail ∧
      (∃ start val, buffer = .reading (.guard start globalTail version val)) ∧
      ∃ queue idx, phase = .loop queue version idx globalTail ∧
        t.Queue updates ret queue idx globalTail
  | .executeFetchMax ret globalTail =>
    (∃ start, buffer = .reading (.range start globalTail globalTail)) ∧
      ∃ queue idx, phase = .loop queue globalTail idx globalTail ∧
        t.Queue updates ret queue idx globalTail
  | .executeStoreLocal ret globalTail =>
    (∃ start, buffer = .reading (.range start globalTail globalTail)) ∧
      (∃ queue, phase = .updatedVersion queue globalTail ∧ queue ⊆ t.requestIds) ∧
      t.Waiting updates ret
  | .finished => phase = .ready ∧ buffer = .idle ∧ t.Answered updates
  | .stuck => phase = .ready ∧ buffer = .idle

end Threads

/-- A request map entry of the log for a reader thread. -/
def ReaderCoupled : Option (Reader DT) → Option (UnboundedLog.ReadonlyState DT) → Prop
  | none, r => r = none
  | some (.called op nodeId), r => r = some (.init op nodeId)
  | some (.syncing op nodeId version), r => r = some (.versionUpperBound op nodeId version)
  | some (.synced op nodeId version), r => r = some (.readyToRead op nodeId version)
  | some (.returned ret), r => ∃ op nodeId version, r = some (.done op nodeId version ret)

/-- A request map entry of the log for a write request. -/
def TicketCoupled : Option (Ticket DT) → Option (UnboundedLog.UpdateState DT) → Prop
  | none, u => u = none
  | some (.pending op), u => u = some (.init op)
  | some (.collected _), u => u ≠ none
  | some (.answered ret), u => ∃ idx, u = some (.done ret idx)

/-- Everything the machines share with the code apart from the combiners' phases. -/
structure Shared (c : State DT) (u : UnboundedLog.State DT) (b : CyclicBuffer.State DT) :
    Prop where
  bufferSize : b.bufferSize = logSize
  numReplicas : u.numReplicas = c.numReplicas
  buffer_numReplicas : b.numReplicas = c.numReplicas
  head : b.head = c.head
  tail : u.tail = c.tail
  buffer_tail : b.tail = c.tail
  localVersions : u.localVersions = c.localVersions
  buffer_localVersions : b.localVersions = c.localVersions
  versionUpperBound : u.versionUpperBound = c.versionUpperBound
  replicas : u.replicas = c.data
  aliveBits : ∀ i < logSize, b.aliveBits i = some (c.slog i).alive
  contents : ∀ i st, b.contents i = some st →
    st.cellPerms.value = some (c.slog (CyclicBuffer.logEntryIdx i logSize)).logEntry
  tokens : ∀ (i : Nat) st, b.contents i = some st → ∃ entry token,
    u.log i = some entry ∧ st.logEntry = some token ∧ token.value = entry
  readers : ∀ rid, ReaderCoupled (c.readers rid) (u.localReads rid)
  tickets : ∀ rid, TicketCoupled (c.tickets rid) (u.localUpdates rid)
  threads_dom : ∀ n, (∃ t, c.threads n = some t) ↔ n < c.numReplicas
  owned : ∀ n t rid, c.threads n = some t → rid ∈ t.requestIds →
    c.tickets rid = some (.collected n)
  nodup : ∀ n t, c.threads n = some t → t.requestIds.Nodup
  operations_le : ∀ n t, c.threads n = some t → t.operations.length ≤ maxRequests

/-- The phases of a node's combiner fit its thread. -/
def ThreadCoupled (c : State DT) (u : UnboundedLog.State DT) (b : CyclicBuffer.State DT)
    (n : NodeId) : Prop :=
  ∀ t phase buffer, c.threads n = some t → u.combiner n = some phase →
    b.combiner n = some buffer →
    t.Coupled c.numReplicas n u.log u.localUpdates c.slog phase buffer

/-- A state of the executable log and the states of both machines that go with it. -/
structure Coupled (c : State DT) (u : UnboundedLog.State DT) (b : CyclicBuffer.State DT) :
    Prop where
  shared : Shared c u b
  threads : ∀ n, ThreadCoupled c u b n

section Frame

variable {numReplicas : Nat} {n : NodeId} {log log' : PMap Nat (UnboundedLog.LogEntry DT)}
  {updates updates' : PMap ReqId (UnboundedLog.UpdateState DT)}
  {slog slog' : Nat → BufferEntry DT} {t : Thread DT} {phase : UnboundedLog.CombinerState}
  {buffer : CyclicBuffer.CombinerState DT}

/-- A relation between requests and their states carries over when the states stay. -/
theorem forall₂_frame {β : Type u} {rids : List ReqId} {xs : List β}
    {P : Option (UnboundedLog.UpdateState DT) → β → Prop}
    (hupd : ∀ rid ∈ rids, updates' rid = updates rid)
    (h : List.Forall₂ (fun rid x ↦ P (updates rid) x) rids xs) :
    List.Forall₂ (fun rid x ↦ P (updates' rid) x) rids xs := by
  have hboth := (List.forall₂_and_left rids xs).mpr ⟨hupd, h⟩
  exact hboth.imp fun rid x hx ↦ hx.1 ▸ hx.2

/-- In related lists every element has a partner. -/
theorem exists_of_forall₂ {α : Type u} {β : Type v} {R : α → β → Prop} {as : List α} {bs : List β}
    (h : List.Forall₂ R as bs) {a : α} (ha : a ∈ as) : ∃ x, R a x := by
  induction h with
  | nil => cases ha
  | cons hx _ ih =>
    cases ha with
    | head => exact ⟨_, hx⟩
    | tail _ hmem => exact ih hmem

private theorem Thread.Requested.frame (h : t.Requested updates)
    (hupd : ∀ rid ∈ t.requestIds, updates' rid = updates rid) : t.Requested updates' :=
  ⟨h.1, forall₂_frame (P := fun s op ↦ s = some (.init op)) hupd h.2⟩

private theorem Thread.Answered.frame (h : t.Answered updates)
    (hupd : ∀ rid ∈ t.requestIds, updates' rid = updates rid) : t.Answered updates' :=
  forall₂_frame (P := fun s ret ↦ ∃ idx, s = some (.done ret idx)) hupd h

private theorem Thread.Waiting.frame {ret : Return} (h : t.Waiting updates ret)
    (hupd : ∀ rid ∈ t.requestIds, updates' rid = updates rid) : t.Waiting updates' ret := by
  cases ret with
  | append => exact Thread.Requested.frame h hupd
  | advanceHead => exact Thread.Answered.frame h hupd
  | combine => exact Thread.Answered.frame h hupd

private theorem Thread.Appended.frame (h : t.Appended updates phase)
    (hupd : ∀ rid ∈ t.requestIds, updates' rid = updates rid) : t.Appended updates' phase :=
  h.imp id fun hans ↦ ⟨hans.1, hans.2.frame hupd⟩

private theorem Thread.Queue.frame {ret : Return} {queue : List ReqId} {idx upper : Nat}
    (h : t.Queue updates ret queue idx upper)
    (hupd : ∀ rid ∈ t.requestIds, updates' rid = updates rid) :
    t.Queue updates' ret queue idx upper := by
  rcases h with ⟨hret, hqueue, hidx, hres⟩ | ⟨hqueue, hwait⟩
  · refine .inl ⟨hret, hqueue, hidx, ?_⟩
    exact forall₂_frame (P := fun s res ↦ ∃ i < upper, s = some (.applied res i))
      (fun rid hrid ↦ hupd rid (List.mem_of_mem_take hrid)) hres
  · exact .inr ⟨hqueue, hwait.frame hupd⟩

/-- A thread's phases depend on its own requests, on log entries that are there, and on the
slot it has just written. -/
theorem Thread.Coupled.frame (h : t.Coupled numReplicas n log updates slog phase buffer)
    (hupd : ∀ rid ∈ t.requestIds, updates' rid = updates rid)
    (hlog : ∀ i entry, log i = some entry → log' i = some entry)
    (hslog : ∀ tail idx advance, t.pc = .appendStoreAlive tail idx advance →
      (slog' (index (tail + idx))).logEntry = (slog (index (tail + idx))).logEntry) :
    t.Coupled numReplicas n log' updates' slog' phase buffer := by
  have happ : ∀ {tail idx}, t.Appending n log phase buffer tail idx →
      t.Appending n log' phase buffer tail idx :=
    fun happ ↦ ⟨happ.1, happ.2.1, fun i op hop ↦ hlog _ _ (happ.2.2 i op hop)⟩
  unfold Thread.Coupled at h ⊢
  cases hpc : t.pc with
  | idle => simpa only [hpc] using h
  | stuck => simpa only [hpc] using h
  | appendLoadTail =>
    simp only [hpc] at h ⊢
    exact ⟨h.1, h.2.1, h.2.2.frame hupd⟩
  | appendLoadHead =>
    simp only [hpc] at h ⊢
    exact ⟨h.1, h.2.1, h.2.2.frame hupd⟩
  | appendReserve =>
    simp only [hpc] at h ⊢
    exact ⟨h.1, h.2.1.frame hupd, h.2.2⟩
  | appendWriteEntry =>
    simp only [hpc] at h ⊢
    exact ⟨happ h.1, h.2⟩
  | appendStoreAlive tail idx advance =>
    simp only [hpc] at h ⊢
    rw [hslog tail idx advance hpc]
    exact ⟨happ h.1, h.2⟩
  | advanceLoadHead =>
    simp only [hpc] at h ⊢
    exact ⟨h.1.frame hupd, h.2⟩
  | advanceLoadTail =>
    simp only [hpc] at h ⊢
    exact ⟨h.1.frame hupd, h.2⟩
  | advanceLoadFirst =>
    simp only [hpc] at h ⊢
    exact ⟨h.1.frame hupd, h.2⟩
  | advanceLoadNext =>
    simp only [hpc] at h ⊢
    exact ⟨h.1.frame hupd, h.2⟩
  | advanceStoreHead =>
    simp only [hpc] at h ⊢
    exact ⟨h.1.frame hupd, h.2⟩
  | executeLoadLocal =>
    simp only [hpc] at h ⊢
    exact ⟨h.1, h.2.imp id fun hw ↦ ⟨hw.1, hw.2.frame hupd⟩⟩
  | executeLoadTail =>
    simp only [hpc] at h ⊢
    obtain ⟨hbuf, queue, hphase, hqueue⟩ := h
    exact ⟨hbuf, queue, hphase, hqueue.frame hupd⟩
  | executeLoadAlive =>
    simp only [hpc] at h ⊢
    obtain ⟨hlt, hbuf, queue, idx, hphase, hqueue⟩ := h
    exact ⟨hlt, hbuf, queue, idx, hphase, hqueue.frame hupd⟩
  | executeDispatch =>
    simp only [hpc] at h ⊢
    obtain ⟨hlt, hbuf, queue, idx, hphase, hqueue⟩ := h
    exact ⟨hlt, hbuf, queue, idx, hphase, hqueue.frame hupd⟩
  | executeFetchMax =>
    simp only [hpc] at h ⊢
    obtain ⟨hbuf, queue, idx, hphase, hqueue⟩ := h
    exact ⟨hbuf, queue, idx, hphase, hqueue.frame hupd⟩
  | executeStoreLocal =>
    simp only [hpc] at h ⊢
    exact ⟨h.1, h.2.1, h.2.2.frame hupd⟩
  | finished =>
    simp only [hpc] at h ⊢
    exact ⟨h.1, h.2.1, h.2.2.frame hupd⟩

/-- A combiner's queue holds requests its thread collected. -/
theorem Thread.Coupled.queuedOps_subset
    (h : t.Coupled numReplicas n log updates slog phase buffer) :
    phase.queuedOps ⊆ t.requestIds := by
  have hqueue : ∀ {ret queue idx upper}, t.Queue updates ret queue idx upper →
      queue ⊆ t.requestIds := by
    rintro ret queue idx upper (⟨_, rfl, _⟩ | ⟨rfl, _⟩)
    · exact fun _ hr ↦ hr
    · exact List.nil_subset _
  have hplaced : t.Placed phase → phase.queuedOps ⊆ t.requestIds := by
    rintro ⟨rfl, _⟩
    exact fun _ hr ↦ hr
  have hready : phase = .ready → phase.queuedOps ⊆ t.requestIds := by
    rintro rfl
    exact List.nil_subset _
  have happended : t.Appended updates phase → phase.queuedOps ⊆ t.requestIds :=
    fun hx ↦ hx.elim hplaced fun hans ↦ hready hans.1
  unfold Thread.Coupled at h
  split at h
  · exact hready h.1
  · exact hready h.1
  · exact hready h.1
  · exact hready h.1
  · exact hplaced h.1.1
  · exact hplaced h.1.1
  · exact happended h.1
  · exact happended h.1
  · exact happended h.1
  · exact happended h.1
  · exact happended h.1
  · exact h.2.elim (fun hp ↦ hplaced hp.2) fun hw ↦ hready hw.1
  · obtain ⟨_, queue, rfl, hq⟩ := h
    exact hqueue hq
  · obtain ⟨_, _, queue, idx, rfl, hq⟩ := h
    exact hqueue hq
  · obtain ⟨_, _, queue, idx, rfl, hq⟩ := h
    exact hqueue hq
  · obtain ⟨_, queue, idx, rfl, hq⟩ := h
    exact hqueue hq
  · obtain ⟨_, ⟨queue, rfl, hsub⟩, _⟩ := h
    exact hsub
  · exact hready h.1
  · exact hready h.1

end Frame

section Update

variable {c : State DT} {u : UnboundedLog.State DT} {b : CyclicBuffer.State DT} {n : NodeId}
  {t t' : Thread DT} {phase : UnboundedLog.CombinerState}
  {buffer : CyclicBuffer.CombinerState DT}

/-- Both machines have a phase for every thread. -/
theorem Coupled.exists_phases (h : Coupled c u b) (hu : UnboundedLog.Inv u)
    (hb : CyclicBuffer.Inv b) (ht : c.threads n = some t) :
    ∃ phase buffer, u.combiner n = some phase ∧ b.combiner n = some buffer ∧
      t.Coupled c.numReplicas n u.log u.localUpdates c.slog phase buffer := by
  have hn : n < c.numReplicas := (h.shared.threads_dom n).mp ⟨t, ht⟩
  obtain ⟨phase, hphase⟩ := (hu.combiner_dom n).mpr (h.shared.numReplicas ▸ hn)
  obtain ⟨buffer, hbuffer⟩ := (hb.combiner_dom n).mpr (h.shared.buffer_numReplicas ▸ hn)
  exact ⟨phase, buffer, hphase, hbuffer, h.threads n t phase buffer ht hphase hbuffer⟩

/-- No two threads collected the same request. -/
theorem Shared.not_mem_of_ne (hs : Shared c u b) {m : NodeId} (hne : m ≠ n)
    (ht : c.threads n = some t) (ht' : c.threads m = some t') {rid : ReqId}
    (hrid : rid ∈ t'.requestIds) : rid ∉ t.requestIds := by
  intro hmem
  have heq := (hs.owned m t' rid ht' hrid).symm.trans (hs.owned n t rid ht hmem)
  injection heq with heq
  injection heq with heq
  exact hne heq

/-- A collected request is in the log's map. -/
theorem Shared.update_ne_none (hs : Shared c u b) (ht : c.threads n = some t) {rid : ReqId}
    (hrid : rid ∈ t.requestIds) : u.localUpdates rid ≠ none := by
  have hticket := hs.tickets rid
  rw [hs.owned n t rid ht hrid] at hticket
  exact hticket

/-- A thread stays coupled when its own requests keep their state, the log is only added to
and no slot it has just written changes. -/
theorem ThreadCoupled.frame {m : NodeId} (h : ThreadCoupled c u b m) {c' : State DT}
    {u' : UnboundedLog.State DT} {b' : CyclicBuffer.State DT}
    (hreplicas : c'.numReplicas = c.numReplicas) (hthread : c'.threads m = c.threads m)
    (hphase : u'.combiner m = u.combiner m) (hbuffer : b'.combiner m = b.combiner m)
    (hupd : ∀ s, c.threads m = some s → ∀ rid ∈ s.requestIds,
      u'.localUpdates rid = u.localUpdates rid)
    (hlog : ∀ i entry, u.log i = some entry → u'.log i = some entry)
    (hslog : ∀ s, c.threads m = some s → ∀ tail idx advance,
      s.pc = .appendStoreAlive tail idx advance →
      (c'.slog (index (tail + idx))).logEntry = (c.slog (index (tail + idx))).logEntry) :
    ThreadCoupled c' u' b' m := by
  intro s phase buffer hs hp hb
  rw [hthread] at hs
  rw [hphase] at hp
  rw [hbuffer] at hb
  rw [hreplicas]
  exact (h s phase buffer hs hp hb).frame (hupd s hs) hlog (hslog s hs)

/-- A step of one thread leaves the phases of the others coupled when it changes only its own
requests, adds to the log and writes no slot another has just written. -/
theorem Coupled.others (h : Coupled c u b) (ht : c.threads n = some t) {c' : State DT}
    {u' : UnboundedLog.State DT} {b' : CyclicBuffer.State DT}
    (hreplicas : c'.numReplicas = c.numReplicas)
    (hthreads : ∀ m ≠ n, c'.threads m = c.threads m)
    (hphases : ∀ m ≠ n, u'.combiner m = u.combiner m)
    (hbuffers : ∀ m ≠ n, b'.combiner m = b.combiner m)
    (hupd : ∀ rid ∉ t.requestIds, u'.localUpdates rid = u.localUpdates rid)
    (hlog : ∀ i entry, u.log i = some entry → u'.log i = some entry)
    (hslog : ∀ m ≠ n, ∀ s, c.threads m = some s → ∀ tail idx advance,
      s.pc = .appendStoreAlive tail idx advance →
      (c'.slog (index (tail + idx))).logEntry = (c.slog (index (tail + idx))).logEntry) :
    ∀ m ≠ n, ThreadCoupled c' u' b' m := by
  intro m hm
  refine (h.threads m).frame hreplicas (hthreads m hm) (hphases m hm) (hbuffers m hm) ?_ hlog
    (hslog m hm)
  exact fun s hs rid hrid ↦ hupd rid (h.shared.not_mem_of_ne hm ht hs hrid)

/-- Only the requests a thread collected get another state in the log. -/
theorem Shared.tickets_of_owned (hs : Shared c u b) (ht : c.threads n = some t)
    {updates : PMap ReqId (UnboundedLog.UpdateState DT)}
    (hupd : ∀ rid ∉ t.requestIds, updates rid = u.localUpdates rid)
    (hsome : ∀ rid ∈ t.requestIds, updates rid ≠ none) (rid : ReqId) :
    TicketCoupled (c.tickets rid) (updates rid) := by
  by_cases hrid : rid ∈ t.requestIds
  · rw [hs.owned n t rid ht hrid]
    exact hsome rid hrid
  · rw [hupd rid hrid]
    exact hs.tickets rid

/-- A node may get another thread where both machines have its node. -/
theorem Coupled.replaceThread (hs : Shared c u b) (hothers : ∀ m ≠ n, ThreadCoupled c u b m)
    (ht : c.threads n = some t) (hphase : u.combiner n = some phase)
    (hbuffer : b.combiner n = some buffer)
    (hnew : t'.Coupled c.numReplicas n u.log u.localUpdates c.slog phase buffer)
    (howned : ∀ rid ∈ t'.requestIds, c.tickets rid = some (.collected n))
    (hnodup : t'.requestIds.Nodup) (hops : t'.operations.length ≤ maxRequests) :
    Coupled (c.setThread n t') u b where
  shared :=
    { hs with
      threads_dom := by
        intro m
        by_cases hm : m = n
        · subst hm
          simpa [State.setThread] using (hs.threads_dom m).mp ⟨t, ht⟩
        · simpa [State.setThread, hm] using hs.threads_dom m
      owned := by
        intro m s rid hm hrid
        rcases (PMap.insert_eq_some _ _ _ _ _).mp hm with ⟨rfl, rfl⟩ | ⟨_, hold⟩
        · exact howned rid hrid
        · exact hs.owned m s rid hold hrid
      nodup := by
        intro m s hm
        rcases (PMap.insert_eq_some _ _ _ _ _).mp hm with ⟨rfl, rfl⟩ | ⟨_, hold⟩
        · exact hnodup
        · exact hs.nodup m s hold
      operations_le := by
        intro m s hm
        rcases (PMap.insert_eq_some _ _ _ _ _).mp hm with ⟨rfl, rfl⟩ | ⟨_, hold⟩
        · exact hops
        · exact hs.operations_le m s hold }
  threads := by
    intro m s phase' buffer' hm hphase' hbuffer'
    rcases (PMap.insert_eq_some _ _ _ _ _).mp hm with ⟨rfl, rfl⟩ | ⟨hne, hold⟩
    · obtain rfl : phase = phase' := Option.some.inj (hphase.symm.trans hphase')
      obtain rfl : buffer = buffer' := Option.some.inj (hbuffer.symm.trans hbuffer')
      exact hnew
    · exact hothers m hne s phase' buffer' hold hphase' hbuffer'

/-- A node's thread may move on to where both machines have its node. -/
theorem Coupled.setThread (hs : Shared c u b) (hothers : ∀ m ≠ n, ThreadCoupled c u b m)
    (ht : c.threads n = some t) (hphase : u.combiner n = some phase)
    (hbuffer : b.combiner n = some buffer)
    (hnew : t'.Coupled c.numReplicas n u.log u.localUpdates c.slog phase buffer)
    (hids : t'.requestIds = t.requestIds) (hops : t'.operations = t.operations) :
    Coupled (c.setThread n t') u b :=
  .replaceThread hs hothers ht hphase hbuffer hnew
    (fun rid hrid ↦ hs.owned n t rid ht (hids ▸ hrid)) (hids ▸ hs.nodup n t ht)
    (hops ▸ hs.operations_le n t ht)

end Update

section Goto

variable {c : State DT} {u : UnboundedLog.State DT} {b : CyclicBuffer.State DT} {n : NodeId}
  {t : Thread DT} {phase phase' : UnboundedLog.CombinerState}
  {buffer buffer' : CyclicBuffer.CombinerState DT} {pc : Pc}

/-- A thread goes on while both machines keep its phases. -/
theorem Coupled.gotoStill (h : Coupled c u b) (ht : c.threads n = some t)
    (hphase : u.combiner n = some phase) (hbuffer : b.combiner n = some buffer)
    (hnew : ({ t with pc := pc } : Thread DT).Coupled c.numReplicas n u.log u.localUpdates
      c.slog phase buffer) : Coupled (c.goto n t pc) u b :=
  .setThread h.shared (fun m _ ↦ h.threads m) ht hphase hbuffer hnew rfl rfl

/-- A thread goes on and both machines change its phase. -/
theorem Coupled.goto (h : Coupled c u b) (ht : c.threads n = some t)
    (hnew : ({ t with pc := pc } : Thread DT).Coupled c.numReplicas n u.log u.localUpdates
      c.slog phase buffer) :
    Coupled (c.goto n t pc) { u with combiner := u.combiner.insert n phase }
      { b with combiner := b.combiner.insert n buffer } :=
  .setThread { h.shared with }
    (h.others ht rfl (fun _ _ ↦ rfl) (fun _ hm ↦ PMap.insert_of_ne _ _ hm)
      (fun _ hm ↦ PMap.insert_of_ne _ _ hm) (fun _ _ ↦ rfl) (fun _ _ hi ↦ hi)
      fun _ _ _ _ _ _ _ _ ↦ rfl)
    ht (PMap.insert_self _ _ _) (PMap.insert_self _ _ _) hnew rfl rfl

/-- A thread goes on and the buffer changes its phase. -/
theorem Coupled.gotoBuffer (h : Coupled c u b) (ht : c.threads n = some t)
    (hphase : u.combiner n = some phase)
    (hnew : ({ t with pc := pc } : Thread DT).Coupled c.numReplicas n u.log u.localUpdates
      c.slog phase buffer) :
    Coupled (c.goto n t pc) u { b with combiner := b.combiner.insert n buffer } := by
  have hgoto := h.goto ht hnew
  rwa [PMap.insert_of_eq_some hphase] at hgoto

end Goto

section Clients

variable {c : State DT} {u : UnboundedLog.State DT} {b : CyclicBuffer.State DT}

/-- A reader and its entry in the log may change together. -/
theorem Coupled.setReaders (h : Coupled c u b) {readers : PMap ReqId (Reader DT)}
    {localReads : PMap ReqId (UnboundedLog.ReadonlyState DT)}
    (hreaders : ∀ rid, ReaderCoupled (readers rid) (localReads rid)) :
    Coupled { c with readers := readers } { u with localReads := localReads } b :=
  ⟨{ h.shared with readers := hreaders }, h.threads⟩

/-- A request no thread collected may change together with its entry in the log. -/
theorem Coupled.setTickets (h : Coupled c u b) {tickets : PMap ReqId (Ticket DT)}
    {updates : PMap ReqId (UnboundedLog.UpdateState DT)}
    (htickets : ∀ rid, TicketCoupled (tickets rid) (updates rid))
    (howned : ∀ n t rid, c.threads n = some t → rid ∈ t.requestIds →
      tickets rid = c.tickets rid ∧ updates rid = u.localUpdates rid) :
    Coupled { c with tickets := tickets } { u with localUpdates := updates } b where
  shared :=
    { h.shared with
      tickets := htickets
      owned := fun n t rid ht hrid ↦
        (howned n t rid ht hrid).1.trans (h.shared.owned n t rid ht hrid) }
  threads := fun n ↦ (h.threads n).frame rfl rfl rfl rfl
    (fun t ht rid hrid ↦ (howned n t rid ht hrid).2) (fun _ _ hi ↦ hi)
    fun _ _ _ _ _ _ ↦ rfl

/-- An id no reader and no request has is fresh for the log. -/
theorem Coupled.freshRid (h : Coupled c u b) (hu : UnboundedLog.Inv u) (hb : CyclicBuffer.Inv b)
    {rid : ReqId} (hreaders : c.readers rid = none) (htickets : c.tickets rid = none) :
    u.FreshRid rid where
  reads := by
    have hr := h.shared.readers rid
    rwa [hreaders] at hr
  updates := by
    have hw := h.shared.tickets rid
    rwa [htickets] at hw
  combiner := by
    intro n phase hphase hmem
    have hn : n < c.numReplicas := h.shared.numReplicas ▸ (hu.combiner_dom n).mp ⟨phase, hphase⟩
    obtain ⟨t, ht⟩ := (h.shared.threads_dom n).mpr hn
    obtain ⟨phase', buffer, hphase', _, hc⟩ := h.exists_phases hu hb ht
    obtain rfl : phase' = phase := Option.some.inj (hphase'.symm.trans hphase)
    cases htickets.symm.trans (h.shared.owned n t rid ht (hc.queuedOps_subset hmem))

end Clients

end NrLog

end NrKernel.NodeReplication
