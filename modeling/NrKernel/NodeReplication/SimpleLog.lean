import NrKernel.NodeReplication.Types

/-!
# The simple log

Requests of a replicated data structure over one unbounded log of updates: the state of
the data structure is computed from a log prefix, not stored. Model of the `SimpleLog`
state machine in `spec/simple_log.rs`.
-/

namespace NrKernel.NodeReplication

open Lib

universe u

namespace SimpleLog

/-- Progress of a read-only query (`spec/simple_log.rs:45–50`). -/
inductive ReadReq (R : Type u) where
  | init (op : R) (nodeId : NodeId)
  | req (version : Nat) (op : R) (nodeId : NodeId)

variable (DT : Dispatch.{u})

/-- State of the simple log (`spec/simple_log.rs:71–86`). -/
@[ext] structure State where
  log : List DT.WriteOperation
  numReplicas : Nat
  replicaVersions : PMap NodeId Nat
  version : Nat
  readonlyReqs : PMap ReqId (ReadReq DT.ReadOperation)
  updateReqs : PMap ReqId DT.WriteOperation
  updateResps : PMap ReqId Nat

/-- Every replica starts at version zero of the empty log (`spec/simple_log.rs:126–136`). -/
def initialState (numReplicas : Nat) : State DT where
  log := []
  numReplicas := numReplicas
  replicaVersions := fun i ↦ if i < numReplicas then some 0 else none
  version := 0
  readonlyReqs := .empty
  updateReqs := .empty
  updateResps := .empty

variable {DT}

/-- State of the data structure at a version of this log (`spec/simple_log.rs:148–152`). -/
def State.nrstateAtVersion (s : State DT) (version : Nat) : DT.View :=
  computeNrstateAtVersion s.log version

/-- A request id no read and no update uses (the guard of both start transitions). -/
def State.Fresh (s : State DT) (rid : ReqId) : Prop :=
  s.readonlyReqs rid = none ∧ s.updateReqs rid = none ∧ s.updateResps rid = none

/-- Transitions of the simple log (`spec/simple_log.rs:163–332`). A replica version is only
compared where one is recorded: the source leaves the lookup of an absent key unspecified. -/
inductive Next : State DT → AsyncLabel DT → State DT → Prop
  | readonlyStart {pre : State DT} (rid : ReqId) (nodeId : NodeId) (op : DT.ReadOperation)
      (hfresh : pre.Fresh rid) :
      Next pre (.start rid (.read op nodeId))
        { pre with readonlyReqs := pre.readonlyReqs.insert rid (.init op nodeId) }
  | readonlyReadVersion {pre : State DT} (rid : ReqId) (op : DT.ReadOperation) (nodeId : NodeId)
      (hreq : pre.readonlyReqs rid = some (.init op nodeId)) :
      Next pre .internal
        { pre with readonlyReqs := pre.readonlyReqs.insert rid (.req pre.version op nodeId) }
  | readonlyFinish {pre : State DT} (rid : ReqId) (version : Nat) (ret : DT.Response)
      (current : Nat) (op : DT.ReadOperation) (nodeId : NodeId)
      (hreq : pre.readonlyReqs rid = some (.req current op nodeId))
      (hreplica : ∀ v, pre.replicaVersions nodeId = some v → version ≤ v)
      (hcurrent : current ≤ version) (hlog : version ≤ pre.log.length)
      (hversion : version ≤ pre.version)
      (hret : ret = DT.dispatchSpec (pre.nrstateAtVersion version) op) :
      Next pre (.done rid (.read ret))
        { pre with readonlyReqs := pre.readonlyReqs.remove rid }
  | readonlyViewOob {pre : State DT} (replica : NodeId) (res : DT.View)
      (hreplica : replica < pre.numReplicas)
      (hres : ∀ v, pre.replicaVersions replica = some v → res = pre.nrstateAtVersion v) :
      Next pre .internal pre
  | updateStart {pre : State DT} (rid : ReqId) (op : DT.WriteOperation)
      (hfresh : pre.Fresh rid) :
      Next pre (.start rid (.write op))
        { pre with updateReqs := pre.updateReqs.insert rid op }
  | updateAddOpToLog {pre : State DT} (rid : ReqId) (op : DT.WriteOperation)
      (hreq : pre.updateReqs rid = some op) :
      Next pre .internal
        { pre with
          log := pre.log ++ [op]
          updateReqs := pre.updateReqs.remove rid
          updateResps := pre.updateResps.insert rid pre.log.length }
  | updateIncrVersion {pre : State DT} (newVersion : Nat)
      (hmono : pre.version ≤ newVersion) (hlog : newVersion ≤ pre.log.length) :
      Next pre .internal { pre with version := newVersion }
  | updateFinish {pre : State DT} (rid : ReqId) (ret : DT.Response) (uidx : Nat)
      (op : DT.WriteOperation) (hresp : pre.updateResps rid = some uidx)
      (hdone : uidx < pre.version) (hlog : pre.version ≤ pre.log.length)
      (hop : pre.log[uidx]? = some op)
      (hret : ret = (DT.dispatchMutSpec (pre.nrstateAtVersion uidx) op).2) :
      Next pre (.done rid (.write ret))
        { pre with updateResps := pre.updateResps.remove rid }
  | updateReplicaUpdate {pre : State DT} (nodeId : NodeId) (newVersion : Nat)
      (hnode : nodeId < pre.numReplicas)
      (hmono : ∀ v, pre.replicaVersions nodeId = some v → v < newVersion)
      (hlog : newVersion ≤ pre.log.length) :
      Next pre .internal
        { pre with replicaVersions := pre.replicaVersions.insert nodeId newVersion }
  | noOp {pre : State DT} : Next pre .internal pre

variable (DT) in
/-- The simple log as a machine over any number of replicas. -/
def machine : Machine (State DT) (AsyncLabel DT) where
  init := fun s ↦ ∃ numReplicas, s = initialState DT numReplicas
  step := Next

/-- What holds in every reachable state: the source's invariants (`spec/simple_log.rs:97–114`),
that a request id is in at most one map, and that the log positions not yet covered by the
version are exactly the unanswered updates. -/
structure Inv (s : State DT) : Prop where
  version_le : s.version ≤ s.log.length
  resp_lt : ∀ rid idx, s.updateResps rid = some idx → idx < s.log.length
  read_le : ∀ rid v op nodeId, s.readonlyReqs rid = some (.req v op nodeId) → v ≤ s.version
  read_update : ∀ rid, s.readonlyReqs rid ≠ none →
    s.updateReqs rid = none ∧ s.updateResps rid = none
  req_resp : ∀ rid, s.updateReqs rid ≠ none → s.updateResps rid = none
  resp_inj : ∀ rid rid' idx, s.updateResps rid = some idx → s.updateResps rid' = some idx →
    rid = rid'
  resp_complete : ∀ idx, s.version ≤ idx → idx < s.log.length →
    ∃ rid, s.updateResps rid = some idx
  reads_finite : s.readonlyReqs.dom.Finite

private theorem inv_initialState (numReplicas : Nat) : Inv (initialState DT numReplicas) where
  version_le := Nat.le_refl 0
  resp_lt := fun _ _ h ↦ nomatch h
  read_le := fun _ _ _ _ h ↦ nomatch h
  read_update := fun _ h ↦ absurd rfl h
  req_resp := fun _ h ↦ absurd rfl h
  resp_inj := fun _ _ _ h ↦ nomatch h
  resp_complete := fun _ _ h ↦ absurd h (Nat.not_lt_zero _)
  reads_finite := PMap.finite_dom_empty

/-- Every transition keeps the invariant. -/
theorem Inv.next {pre post : State DT} {label : AsyncLabel DT} (h : Inv pre)
    (hstep : Next pre label post) : Inv post := by
  obtain ⟨hver, hlt, hread, hru, hrr, hinj, hcomp, hfin⟩ := h
  cases hstep with
  | readonlyStart rid nodeId op hfresh =>
    obtain ⟨_, hupd, hresp⟩ := hfresh
    exact
      { version_le := hver, resp_lt := hlt, req_resp := hrr, resp_inj := hinj
        resp_complete := hcomp
        read_le := by grind
        read_update := by grind
        reads_finite := PMap.finite_dom_insert hfin rid _ }
  | readonlyReadVersion rid op nodeId hreq =>
    exact
      { version_le := hver, resp_lt := hlt, req_resp := hrr, resp_inj := hinj
        resp_complete := hcomp
        read_le := by grind
        read_update := by grind
        reads_finite := PMap.finite_dom_insert hfin rid _ }
  | readonlyFinish rid version ret current op nodeId hreq =>
    exact
      { version_le := hver, resp_lt := hlt, req_resp := hrr, resp_inj := hinj
        resp_complete := hcomp
        read_le := by grind
        read_update := by grind
        reads_finite := PMap.finite_dom_remove hfin rid }
  | readonlyViewOob => exact ⟨hver, hlt, hread, hru, hrr, hinj, hcomp, hfin⟩
  | updateStart rid op hfresh =>
    obtain ⟨hread', _, hresp⟩ := hfresh
    exact
      { version_le := hver, resp_lt := hlt, read_le := hread, resp_inj := hinj
        resp_complete := hcomp, reads_finite := hfin
        read_update := by grind
        req_resp := by grind }
  | updateAddOpToLog rid op hreq =>
    have hnone : pre.updateResps rid = none := hrr rid (by simp [hreq])
    exact
      { read_le := hread, reads_finite := hfin
        version_le := by grind
        resp_lt := by grind
        read_update := by grind
        req_resp := by grind
        resp_inj := by grind
        resp_complete := by
          intro idx hle hidx
          by_cases heq : idx = pre.log.length
          · exact ⟨rid, by grind⟩
          · obtain ⟨rid', hrid'⟩ := hcomp idx hle (by grind)
            exact ⟨rid', by grind⟩ }
  | updateIncrVersion newVersion hmono hlog =>
    exact
      { version_le := hlog, resp_lt := hlt, read_update := hru, req_resp := hrr
        resp_inj := hinj, reads_finite := hfin
        read_le := fun rid v op nodeId h ↦ (hread rid v op nodeId h).trans hmono
        resp_complete := fun idx h ↦ hcomp idx (hmono.trans h) }
  | updateFinish rid ret uidx op hresp hdone =>
    exact
      { version_le := hver, read_le := hread, reads_finite := hfin
        resp_lt := by grind
        read_update := by grind
        req_resp := by grind
        resp_inj := by grind
        resp_complete := by
          intro idx hle hidx
          obtain ⟨rid', hrid'⟩ := hcomp idx hle hidx
          exact ⟨rid', by grind⟩ }
  | updateReplicaUpdate => exact ⟨hver, hlt, hread, hru, hrr, hinj, hcomp, hfin⟩
  | noOp => exact ⟨hver, hlt, hread, hru, hrr, hinj, hcomp, hfin⟩

/-- The invariant holds in every reachable state. -/
theorem inv_of_reachable {s : State DT} (h : (machine DT).Reachable s) : Inv s :=
  h.invariant (fun _ ⟨n, hs⟩ ↦ hs ▸ inv_initialState n) fun _ _ _ hI hs ↦ hI.next hs

end SimpleLog

end NrKernel.NodeReplication
