import NrKernel.NodeReplication.Linearization
import NrKernel.NodeReplication.UnboundedLogInvariant

/-!
# The unbounded log refines the simple log

The simple log forgets replicas and combiners: it keeps the updates in log order, the version
upper bound and the requests in flight. Model of `interp` and of the refinement in
`spec/unbounded_log_refines_simplelog.rs`.
-/

namespace NrKernel.NodeReplication

open Lib

universe u

namespace UnboundedLog

variable {DT : Dispatch.{u}}

/-- The updates below the tail in log order (`spec/unbounded_log_refines_simplelog.rs:144–148`). -/
def interpLog (globalTail : Nat) (log : PMap Nat (LogEntry DT)) : List DT.WriteOperation :=
  (List.range globalTail).filterMap fun i ↦ (log i).map LogEntry.op

/-- What the simple log records of a read
(`spec/unbounded_log_refines_simplelog.rs:150–177`). -/
def ReadonlyState.interp : ReadonlyState DT → SimpleLog.ReadReq DT.ReadOperation
  | .init op nodeId => .init op nodeId
  | .versionUpperBound op nodeId version => .req version op nodeId
  | .readyToRead op nodeId version => .req version op nodeId
  | .done op nodeId version _ => .req version op nodeId

/-- An update still to be logged (`spec/unbounded_log_refines_simplelog.rs:179–191`). -/
def UpdateState.interpReq : UpdateState DT → Option DT.WriteOperation
  | .init op => some op
  | .placed _ _ => none
  | .applied _ _ => none
  | .done _ _ => none

/-- The log index of a logged update (`spec/unbounded_log_refines_simplelog.rs:193–207`). -/
def UpdateState.interpResp : UpdateState DT → Option Nat
  | .init _ => none
  | .placed _ idx => some idx
  | .applied _ idx => some idx
  | .done _ idx => some idx

/-- The simple log a state stands for (`spec/unbounded_log_refines_simplelog.rs:209–221`). -/
def State.interp (s : State DT) : SimpleLog.State DT where
  log := interpLog s.tail s.log
  numReplicas := s.numReplicas
  replicaVersions := fun n ↦ if n < s.numReplicas then some (s.currentLocalVersion n) else none
  version := s.versionUpperBound
  readonlyReqs := fun rid ↦ (s.localReads rid).map ReadonlyState.interp
  updateReqs := fun rid ↦ (s.localUpdates rid).bind UpdateState.interpReq
  updateResps := fun rid ↦ (s.localUpdates rid).bind UpdateState.interpResp

section InterpLog

variable {log : PMap Nat (LogEntry DT)} {tail : Nat}

private theorem interpLog_succ {entry : LogEntry DT} (h : log tail = some entry) :
    interpLog (tail + 1) log = interpLog tail log ++ [entry.op] := by
  simp [interpLog, List.range_succ, h]

/-- A complete log is read position by position. -/
theorem interpLog_spec (h : ∀ i, i < tail → ∃ entry, log i = some entry) :
    (interpLog tail log).length = tail ∧
      ∀ i, i < tail → (interpLog tail log)[i]? = (log i).map LogEntry.op := by
  induction tail with
  | zero => exact ⟨rfl, fun i hi ↦ absurd hi (Nat.not_lt_zero i)⟩
  | succ tail ih =>
    obtain ⟨entry, hentry⟩ := h tail (Nat.lt_succ_self tail)
    obtain ⟨hlen, hget⟩ := ih fun i hi ↦ h i (Nat.lt_succ_of_lt hi)
    rw [interpLog_succ hentry]
    refine ⟨by simp [hlen], fun i hi ↦ ?_⟩
    by_cases heq : i = tail
    · subst heq
      simp [hlen, hentry]
    · rw [List.getElem?_append_left (by omega)]
      exact hget i (by omega)

private theorem interpLog_insert (entry : LogEntry DT) :
    interpLog (tail + 1) (log.insert tail entry) = interpLog tail log ++ [entry.op] := by
  rw [interpLog_succ (PMap.insert_self _ _ _)]
  congr 1
  refine List.filterMap_congr fun i hi ↦ ?_
  have hne : i ≠ tail := (List.mem_range.mp hi).ne
  rw [PMap.insert_of_ne _ _ hne]

/-- Both logs compute the same state (`state_at_version_refines`,
`spec/unbounded_log_refines_simplelog.rs:455–473`). -/
theorem computeNrstateAtVersion_interpLog {version : Nat}
    (h : ∀ i, i < tail → ∃ entry, log i = some entry) (hle : version ≤ tail) :
    computeNrstateAtVersion (interpLog tail log) version = computeNrstate log version := by
  induction version with
  | zero => rfl
  | succ version ih =>
    obtain ⟨entry, hentry⟩ := h version hle
    have hget : (interpLog tail log)[version]? = some entry.op := by
      rw [(interpLog_spec h).2 version hle, hentry, Option.map_some]
    rw [computeNrstateAtVersion_succ hget, computeNrstate_succ hentry, ih (Nat.le_of_lt hle)]

end InterpLog

section Steps

variable {s : State DT}

private theorem Inv.log_complete (h : Inv s) (i : Nat) (hi : i < s.tail) :
    ∃ entry, s.log i = some entry :=
  (h.log_dom i).mpr hi

private theorem Inv.interp_log_length (h : Inv s) : s.interp.log.length = s.tail :=
  (interpLog_spec h.log_complete).1

private theorem Inv.interp_nrstate (h : Inv s) {version : Nat} (hle : version ≤ s.tail) :
    s.interp.nrstateAtVersion version = computeNrstate s.log version :=
  computeNrstateAtVersion_interpLog h.log_complete hle

private theorem interp_insertRead (rid : ReqId) (r : ReadonlyState DT) :
    { s with localReads := s.localReads.insert rid r }.interp =
      { s.interp with readonlyReqs := s.interp.readonlyReqs.insert rid r.interp } := by
  refine SimpleLog.State.ext rfl rfl rfl rfl ?_ rfl rfl
  funext x
  by_cases hx : x = rid
  · simp [State.interp, hx]
  · simp [State.interp, hx]

private theorem interp_insertRead_same {rid : ReqId} {r r' : ReadonlyState DT}
    (hr : s.localReads rid = some r) (heq : r'.interp = r.interp) :
    { s with localReads := s.localReads.insert rid r' }.interp = s.interp := by
  refine SimpleLog.State.ext rfl rfl rfl rfl ?_ rfl rfl
  funext x
  by_cases hx : x = rid
  · simp [State.interp, hx, hr, heq]
  · simp [State.interp, hx]

-- Recording an update whose images are recorded already changes nothing.
private theorem interp_insertUpdate_same {rid : ReqId} {u u' : UpdateState DT}
    (hu : s.localUpdates rid = some u) (hreq : u'.interpReq = u.interpReq)
    (hresp : u'.interpResp = u.interpResp) :
    { s with localUpdates := s.localUpdates.insert rid u' }.interp = s.interp := by
  refine SimpleLog.State.ext rfl rfl rfl rfl rfl ?_ ?_
  · funext x
    by_cases hx : x = rid
    · simp [State.interp, hx, hu, hreq]
    · simp [State.interp, hx]
  · funext x
    by_cases hx : x = rid
    · simp [State.interp, hx, hu, hresp]
    · simp [State.interp, hx]

private theorem interp_setReplicas {replicas : PMap NodeId DT.View}
    {localVersions : PMap NodeId Nat} {combiner : PMap NodeId CombinerState}
    (h : ∀ n, { s with
      replicas := replicas
      localVersions := localVersions
      combiner := combiner }.currentLocalVersion n = s.currentLocalVersion n) :
    { s with
      replicas := replicas
      localVersions := localVersions
      combiner := combiner }.interp = s.interp := by
  refine SimpleLog.State.ext rfl rfl ?_ rfl rfl rfl rfl
  funext n
  simp only [State.interp, h n]

private theorem interp_setCombiner (h : Inv s) {n : NodeId} {c c' : CombinerState}
    (hc : s.combiner n = some c)
    (hcur : ∀ v, s.localVersions n = some v → c'.currentVersion v = c.currentVersion v) :
    { s with combiner := s.combiner.insert n c' }.interp = s.interp := by
  refine interp_setReplicas fun m ↦ ?_
  by_cases hm : m = n
  · subst hm
    obtain ⟨v, hv⟩ := h.exists_version hc
    rw [currentLocalVersion_eq hc hv, ← hcur v hv]
    simp [State.currentLocalVersion, hv]
  · simp [State.currentLocalVersion, hm]

private theorem next_dispatch (h : Inv s) {n : NodeId} {queuedOps : List ReqId}
    {lversion idx idx' tail : Nat} {replicas : PMap NodeId DT.View}
    {updates : PMap ReqId (UpdateState DT)} {entry : LogEntry DT}
    (hc : s.combiner n = some (.loop queuedOps lversion idx tail))
    (hlog : s.log lversion = some entry)
    (hupd : { s with localUpdates := updates }.interp = s.interp) :
    SimpleLog.Next s.interp .internal
      { s with
        localUpdates := updates
        replicas := replicas
        combiner := s.combiner.insert n (.loop queuedOps (lversion + 1) idx' tail) }.interp := by
  obtain ⟨v, hv⟩ := h.exists_version hc
  have hn : n < s.numReplicas := (h.combiner_dom n).mp ⟨_, hc⟩
  have hcur : s.currentLocalVersion n = lversion := currentLocalVersion_eq hc hv
  have htail : lversion < s.tail := (h.log_dom lversion).mp ⟨entry, hlog⟩
  have hstep : SimpleLog.Next s.interp .internal _ :=
    .updateReplicaUpdate n (lversion + 1) hn (by simp [State.interp, hn, hcur])
      (by rw [h.interp_log_length]; exact htail)
  convert hstep using 1
  have hreqs := congrArg SimpleLog.State.updateReqs hupd
  have hresps := congrArg SimpleLog.State.updateResps hupd
  refine SimpleLog.State.ext rfl rfl ?_ rfl rfl hreqs hresps
  funext m
  by_cases hm : m = n
  · simp [State.interp, State.currentLocalVersion, CombinerState.currentVersion, hm, hn]
  · simp [State.interp, State.currentLocalVersion, hm]

/-- Every transition of the machine is one internal step of the simple log. -/
theorem next_of_transition {post : State DT} (h : Inv s) (hstep : Transition s post) :
    SimpleLog.Next s.interp .internal post.interp := by
  have hnoOp : post.interp = s.interp → SimpleLog.Next s.interp .internal post.interp :=
    fun heq ↦ heq ▸ .noOp
  cases hstep with
  | readonlyVersionUpperBound rid op nodeId hread =>
    rw [interp_insertRead]
    exact .readonlyReadVersion rid op nodeId (by simp [State.interp, hread, ReadonlyState.interp])
  | readonlyReadyToRead rid op nodeId version localHead hread hlocal hsync =>
    exact hnoOp (interp_insertRead_same hread rfl)
  | readonlyApply rid op nodeId version state hread hcombiner hreplica =>
    exact hnoOp (interp_insertRead_same hread rfl)
  | readonlyViewOob replica res hnode hres =>
    refine .readonlyViewOob replica res hnode fun v hv ↦ ?_
    have hcur : s.currentLocalVersion replica = v := by simpa [State.interp, hnode] using hv
    subst hcur
    rw [h.replica_state replica res hres, h.interp_nrstate (h.currentLocalVersion_le hnode)]
  | updatePlaceOpsInLogOne nodeId rid queuedOps op hcombiner hupdate =>
    have hreq : s.interp.updateReqs rid = some op := by
      simp [State.interp, hupdate, UpdateState.interpReq]
    convert SimpleLog.Next.updateAddOpToLog rid op hreq using 1
    refine SimpleLog.State.ext ?_ rfl ?_ rfl rfl ?_ ?_
    · exact interpLog_insert _
    · funext m
      by_cases hm : m = nodeId
      · simp [State.interp, State.currentLocalVersion, CombinerState.currentVersion, hm,
          hcombiner]
      · simp [State.interp, State.currentLocalVersion, hm]
    · funext x
      by_cases hx : x = rid
      · simp [State.interp, UpdateState.interpReq, hx]
      · simp [State.interp, hx]
    · funext x
      by_cases hx : x = rid
      · have hlen := h.interp_log_length
        simp [State.interp, UpdateState.interpResp, hx] at hlen ⊢
        exact hlen.symm
      · simp [State.interp, hx]
  | updateDone rid ret idx hupdate hversion =>
    exact hnoOp (interp_insertUpdate_same hupdate rfl rfl)
  | execTrivialStart nodeId hcombiner =>
    exact hnoOp (interp_setCombiner h hcombiner fun _ _ ↦ rfl)
  | execLoadLocalVersion nodeId queuedOps lversion hcombiner hlocal =>
    exact hnoOp (interp_setCombiner h hcombiner fun v hv ↦
      Option.some.inj (hlocal.symm.trans hv))
  | execLoadGlobalHead nodeId queuedOps lversion hcombiner =>
    exact hnoOp (interp_setCombiner h hcombiner fun _ _ ↦ rfl)
  | execDispatchLocal nodeId queuedOps lversion idx tail d rid u entry hc hd hrid hu hlog hlt hn =>
    refine next_dispatch h hc hlog ?_
    obtain ⟨rid', op, hget, hplaced⟩ := h.next_placed hc hlog hlt hn
    obtain rfl : rid = rid' := hrid rid' hget
    obtain rfl : u = .placed op lversion := Option.some.inj (hu.symm.trans hplaced)
    exact interp_insertUpdate_same hu rfl rfl
  | execDispatchRemote nodeId queuedOps lversion idx tail d entry hc hd hlog hlt hn =>
    exact next_dispatch h hc hlog rfl
  | execUpdateVersionUpperBound nodeId queuedOps lversion idx tail hc hdone =>
    subst hdone
    obtain ⟨v, hv⟩ := h.exists_version hc
    have hle : lversion ≤ s.tail := h.currentVersion_le hc hv
    have hub := h.upperBound_le
    have hstep : SimpleLog.Next s.interp .internal _ :=
      .updateIncrVersion
        (if lversion ≤ s.versionUpperBound then s.versionUpperBound else lversion)
        (by
          change s.versionUpperBound ≤ _
          split <;> omega)
        (by
          rw [h.interp_log_length]
          split <;> omega)
    convert hstep using 1
    refine SimpleLog.State.ext rfl rfl ?_ rfl rfl rfl rfl
    funext m
    by_cases hm : m = nodeId
    · simp [State.interp, State.currentLocalVersion, CombinerState.currentVersion, hm, hc]
    · simp [State.interp, State.currentLocalVersion, hm]
  | execFinish nodeId queuedOps tail oldLocalHead hc hlocal =>
    refine hnoOp (interp_setReplicas fun m ↦ ?_)
    by_cases hm : m = nodeId
    · simp [State.currentLocalVersion, CombinerState.currentVersion, hm, hc]
    · simp [State.currentLocalVersion, hm]
  | execFinishNoChange nodeId queuedOps lversion hc hdone =>
    exact hnoOp (interp_setCombiner h hc fun v hv ↦ (h.combiner_wf nodeId _ v hc hv).phase.symm)

private theorem fresh_interp {rid : ReqId} (hfresh : s.FreshRid rid) : s.interp.Fresh rid := by
  refine ⟨?_, ?_, ?_⟩
  · simp [State.interp, hfresh.reads]
  · simp [State.interp, hfresh.updates]
  · simp [State.interp, hfresh.updates]

private theorem next_addTicket {rid : ReqId} (hfresh : s.FreshRid rid)
    (input : InputOperation DT) :
    SimpleLog.Next s.interp (.start rid input) (s.addTicket rid input).interp := by
  cases input with
  | read op nodeId =>
    rw [State.addTicket, interp_insertRead]
    exact .readonlyStart rid nodeId op (fresh_interp hfresh)
  | write op =>
    convert SimpleLog.Next.updateStart rid op (fresh_interp hfresh) using 1
    refine SimpleLog.State.ext rfl rfl rfl rfl rfl ?_ ?_
    · funext x
      by_cases hx : x = rid
      · simp [State.addTicket, State.interp, UpdateState.interpReq, hx]
      · simp [State.addTicket, State.interp, hx]
    · funext x
      by_cases hx : x = rid
      · simp [State.addTicket, State.interp, UpdateState.interpResp, hx, hfresh.updates]
      · simp [State.addTicket, State.interp, hx]

-- A read stub maps to the end of a read that returns at a version between the one it recorded and
-- the one its replica has applied.
private theorem next_consumeRead (h : Inv s) {rid : ReqId} {op : DT.ReadOperation}
    {nodeId : NodeId} {version : Nat} {ret : DT.Response}
    (hread : s.localReads rid = some (.done op nodeId version ret)) :
    SimpleLog.Next s.interp (.done rid (.read ret))
      { s with localReads := s.localReads.remove rid }.interp := by
  obtain ⟨hn, v, hle, hub, hcur, hret⟩ := h.reads_wf rid _ hread
  have htail : v ≤ s.tail := hub.trans h.upperBound_le
  have hstep : SimpleLog.Next s.interp (.done rid (.read ret)) _ :=
    .readonlyFinish rid v ret version op nodeId
      (by simp [State.interp, hread, ReadonlyState.interp])
      (fun w hw ↦ by
        have hw' : s.currentLocalVersion nodeId = w := by simpa [State.interp, hn] using hw
        omega)
      hle (by rw [h.interp_log_length]; exact htail) hub
      (by rw [h.interp_nrstate htail, hret])
  convert hstep using 1
  refine SimpleLog.State.ext rfl rfl rfl rfl ?_ rfl rfl
  funext x
  by_cases hx : x = rid
  · simp [State.interp, hx]
  · simp [State.interp, hx]

private theorem next_consumeUpdate (h : Inv s) {rid : ReqId} {ret : DT.Response} {idx : Nat}
    (hupdate : s.localUpdates rid = some (.done ret idx)) :
    SimpleLog.Next s.interp (.done rid (.write ret))
      { s with localUpdates := s.localUpdates.remove rid }.interp := by
  obtain ⟨hlt, entry, hentry, hret⟩ := h.updates_wf rid _ hupdate
  have hub := h.upperBound_le
  have hstep : SimpleLog.Next s.interp (.done rid (.write ret)) _ :=
    .updateFinish rid ret idx entry.op (by simp [State.interp, hupdate, UpdateState.interpResp])
      hlt (by rw [h.interp_log_length]; exact hub)
      (by
        have hget := (interpLog_spec h.log_complete).2 idx (by omega)
        rwa [hentry] at hget)
      (by rw [h.interp_nrstate (by omega), hret])
  convert hstep using 1
  refine SimpleLog.State.ext rfl rfl rfl rfl rfl ?_ ?_
  · funext x
    by_cases hx : x = rid
    · simp [State.interp, UpdateState.interpReq, hx, hupdate]
    · simp [State.interp, hx]
  · funext x
    by_cases hx : x = rid
    · simp [State.interp, hx]
    · simp [State.interp, hx]

/-- Every step of the system is one step of the simple log with the same label. -/
theorem interp_next {label : AsyncLabel DT} {post : State DT} (h : Inv s)
    (hstep : Next s label post) : SimpleLog.Next s.interp label post.interp := by
  cases hstep with
  | transition hstep => exact next_of_transition h hstep
  | addTicket rid input hfresh => exact next_addTicket hfresh input
  | consumeRead rid op nodeId version ret hread => exact next_consumeRead h hread
  | consumeUpdate rid ret idx hupdate => exact next_consumeUpdate h hupdate

end Steps

/-- The initial states correspond. -/
theorem interp_initialState (numberOfNodes : Nat) :
    (initialState DT numberOfNodes).interp = SimpleLog.initialState DT numberOfNodes := by
  refine SimpleLog.State.ext rfl rfl ?_ rfl rfl rfl rfl
  funext n
  by_cases hn : n < numberOfNodes
  · simp [State.interp, State.currentLocalVersion, CombinerState.currentVersion, initialState,
      SimpleLog.initialState, hn]
  · simp [State.interp, initialState, SimpleLog.initialState, hn]

/-- The unbounded log refines the simple log: from every reachable state each transition is
one internal step, each ticket a start and each stub an end with the same request id,
operation and returned value. -/
theorem unboundedLog_refines_simpleLog :
    Refines (machine DT) (SimpleLog.machine DT) State.interp fun _ label ↦ label where
  init := by
    rintro s ⟨numberOfNodes, _, rfl⟩
    exact ⟨numberOfNodes, interp_initialState numberOfNodes⟩
  step := fun _ _ _ hs hstep ↦ interp_next (inv_of_reachable hs) hstep

end UnboundedLog

end NrKernel.NodeReplication
