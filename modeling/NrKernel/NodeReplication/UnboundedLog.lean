import NrKernel.NodeReplication.Types

/-!
# The unbounded log

Node replication over a log that is never collected: one data structure per replica, one
combiner per replica that places queued updates into the log and then applies the log to its
replica, and the version counters that reads wait on. Model of the `UnboundedLog` state
machine in `spec/unbounded_log.rs` and of the two client steps in `lib.rs:407–455`.
-/

namespace NrKernel.NodeReplication

open Lib

universe u

namespace UnboundedLog

variable (DT : Dispatch.{u})

/-- An entry of the abstract log (`spec/types.rs:20–23`). -/
structure LogEntry where
  op : DT.WriteOperation
  nodeId : NodeId

/-- Progress of a read-only query (`spec/unbounded_log.rs:60–69`). -/
inductive ReadonlyState where
  | init (op : DT.ReadOperation) (nodeId : NodeId)
  | versionUpperBound (op : DT.ReadOperation) (nodeId : NodeId) (versionUpperBound : Nat)
  | readyToRead (op : DT.ReadOperation) (nodeId : NodeId) (versionUpperBound : Nat)
  | done (op : DT.ReadOperation) (nodeId : NodeId) (versionUpperBound : Nat) (ret : DT.Response)

/-- Progress of an update (`spec/unbounded_log.rs:219–228`). -/
inductive UpdateState where
  | init (op : DT.WriteOperation)
  | placed (op : DT.WriteOperation) (idx : Nat)
  | applied (ret : DT.Response) (idx : Nat)
  | done (ret : DT.Response) (idx : Nat)

/-- Phase of a combiner (`spec/unbounded_log.rs:231–246`). -/
inductive CombinerState where
  | ready
  | placed (queuedOps : List ReqId)
  | loadedLocalVersion (queuedOps : List ReqId) (lversion : Nat)
  | loop (queuedOps : List ReqId) (lversion idx tail : Nat)
  | updatedVersion (queuedOps : List ReqId) (tail : Nat)

/-- The requests a combiner works on (`spec/unbounded_log.rs:249–257`). -/
def CombinerState.queuedOps : CombinerState → List ReqId
  | .ready => []
  | .placed queuedOps => queuedOps
  | .loadedLocalVersion queuedOps _ => queuedOps
  | .loop queuedOps _ _ _ => queuedOps
  | .updatedVersion queuedOps _ => queuedOps

/-- State of the machine (`spec/unbounded_log.rs:269–296`). -/
structure State where
  numReplicas : Nat
  log : PMap Nat (LogEntry DT)
  tail : Nat
  replicas : PMap NodeId DT.View
  localVersions : PMap NodeId Nat
  versionUpperBound : Nat
  localReads : PMap ReqId (ReadonlyState DT)
  localUpdates : PMap ReqId (UpdateState DT)
  combiner : PMap NodeId CombinerState

/-- An empty log and every combiner ready (`spec/unbounded_log.rs:589–602`). -/
def initialState (numberOfNodes : Nat) : State DT where
  numReplicas := numberOfNodes
  log := .empty
  tail := 0
  replicas := fun n ↦ if n < numberOfNodes then some DT.initSpec else none
  localVersions := fun n ↦ if n < numberOfNodes then some 0 else none
  versionUpperBound := 0
  localReads := .empty
  localUpdates := .empty
  combiner := fun n ↦ if n < numberOfNodes then some .ready else none

variable {DT}

/-- The log prefix a replica has applied, in terms of its published version and its combiner
(`spec/unbounded_log.rs:1154–1164`). -/
def CombinerState.currentVersion (localVersion : Nat) : CombinerState → Nat
  | .ready => localVersion
  | .placed _ => localVersion
  | .loadedLocalVersion _ lversion => lversion
  | .loop _ lversion _ _ => lversion
  | .updatedVersion _ tail => tail

/-- The current local version of a node (`spec/unbounded_log.rs:1154–1164`). -/
def State.currentLocalVersion (s : State DT) (nodeId : NodeId) : Nat :=
  ((s.combiner nodeId).getD .ready).currentVersion ((s.localVersions nodeId).getD 0)

/-- State of the data structure after the first `version` entries of the log
(`spec/unbounded_log.rs:2055–2069`). Absent entries, which the source leaves unspecified, do
not change the state here. -/
def computeNrstate (log : PMap Nat (LogEntry DT)) : Nat → DT.View
  | 0 => DT.initSpec
  | version + 1 =>
    match log version with
    | some entry => (DT.dispatchMutSpec (computeNrstate log version) entry.op).1
    | none => computeNrstate log version

/-- Transitions of the machine (`spec/unbounded_log.rs:611–849`). The safety conditions the
source asserts inside transitions are not guards. -/
inductive Transition : State DT → State DT → Prop
  | readonlyVersionUpperBound {pre : State DT} (rid : ReqId) (op : DT.ReadOperation)
      (nodeId : NodeId) (hread : pre.localReads rid = some (.init op nodeId)) :
      Transition pre
        { pre with
          localReads := pre.localReads.insert rid
            (.versionUpperBound op nodeId pre.versionUpperBound) }
  | readonlyReadyToRead {pre : State DT} (rid : ReqId) (op : DT.ReadOperation)
      (nodeId : NodeId) (versionUpperBound localHead : Nat)
      (hread : pre.localReads rid = some (.versionUpperBound op nodeId versionUpperBound))
      (hlocal : pre.localVersions nodeId = some localHead)
      (hsync : versionUpperBound ≤ localHead) :
      Transition pre
        { pre with
          localReads := pre.localReads.insert rid
            (.readyToRead op nodeId versionUpperBound) }
  | readonlyApply {pre : State DT} (rid : ReqId) (op : DT.ReadOperation)
      (nodeId : NodeId) (versionUpperBound : Nat) (state : DT.View)
      (hread : pre.localReads rid = some (.readyToRead op nodeId versionUpperBound))
      (hcombiner : pre.combiner nodeId = some .ready)
      (hreplica : pre.replicas nodeId = some state) :
      Transition pre
        { pre with
          localReads := pre.localReads.insert rid
            (.done op nodeId versionUpperBound (DT.dispatchSpec state op)) }
  | readonlyViewOob {pre : State DT} (replica : NodeId) (res : DT.View)
      (hnode : replica < pre.numReplicas) (hres : pre.replicas replica = some res) :
      Transition pre pre
  | updatePlaceOpsInLogOne {pre : State DT} (nodeId : NodeId) (rid : ReqId)
      (queuedOps : List ReqId) (op : DT.WriteOperation)
      (hcombiner : pre.combiner nodeId = some (.placed queuedOps))
      (hupdate : pre.localUpdates rid = some (.init op)) :
      Transition pre
        { pre with
          tail := pre.tail + 1
          log := pre.log.insert pre.tail ⟨op, nodeId⟩
          localUpdates := pre.localUpdates.insert rid (.placed op pre.tail)
          combiner := pre.combiner.insert nodeId (.placed (queuedOps ++ [rid])) }
  | updateDone {pre : State DT} (rid : ReqId) (ret : DT.Response) (idx : Nat)
      (hupdate : pre.localUpdates rid = some (.applied ret idx))
      (hversion : idx < pre.versionUpperBound) :
      Transition pre { pre with localUpdates := pre.localUpdates.insert rid (.done ret idx) }
  | execTrivialStart {pre : State DT} (nodeId : NodeId)
      (hcombiner : pre.combiner nodeId = some .ready) :
      Transition pre { pre with combiner := pre.combiner.insert nodeId (.placed []) }
  | execLoadLocalVersion {pre : State DT} (nodeId : NodeId) (queuedOps : List ReqId)
      (lversion : Nat) (hcombiner : pre.combiner nodeId = some (.placed queuedOps))
      (hlocal : pre.localVersions nodeId = some lversion) :
      Transition pre
        { pre with
          combiner := pre.combiner.insert nodeId (.loadedLocalVersion queuedOps lversion) }
  | execLoadGlobalHead {pre : State DT} (nodeId : NodeId) (queuedOps : List ReqId)
      (lversion : Nat)
      (hcombiner : pre.combiner nodeId = some (.loadedLocalVersion queuedOps lversion)) :
      Transition pre
        { pre with combiner := pre.combiner.insert nodeId (.loop queuedOps lversion 0 pre.tail) }
  | execDispatchLocal {pre : State DT} (nodeId : NodeId) (queuedOps : List ReqId)
      (lversion idx tail : Nat) (oldNrState : DT.View) (rid : ReqId)
      (localUpdate : UpdateState DT) (logEntry : LogEntry DT)
      (hcombiner : pre.combiner nodeId = some (.loop queuedOps lversion idx tail))
      (hreplica : pre.replicas nodeId = some oldNrState)
      -- an index past the end of the queue selects an unspecified request in the source
      (hrid : ∀ r, queuedOps[idx]? = some r → rid = r)
      (hupdate : pre.localUpdates rid = some localUpdate)
      (hlog : pre.log lversion = some logEntry) (hrange : lversion < tail)
      (hnode : logEntry.nodeId = nodeId) :
      Transition pre
        { pre with
          localUpdates := pre.localUpdates.insert rid
            (.applied (DT.dispatchMutSpec oldNrState logEntry.op).2 lversion)
          replicas := pre.replicas.insert nodeId (DT.dispatchMutSpec oldNrState logEntry.op).1
          combiner := pre.combiner.insert nodeId
            (.loop queuedOps (lversion + 1) (idx + 1) tail) }
  | execDispatchRemote {pre : State DT} (nodeId : NodeId) (queuedOps : List ReqId)
      (lversion idx tail : Nat) (oldNrState : DT.View) (logEntry : LogEntry DT)
      (hcombiner : pre.combiner nodeId = some (.loop queuedOps lversion idx tail))
      (hreplica : pre.replicas nodeId = some oldNrState)
      (hlog : pre.log lversion = some logEntry) (hrange : lversion < tail)
      (hnode : logEntry.nodeId ≠ nodeId) :
      Transition pre
        { pre with
          replicas := pre.replicas.insert nodeId (DT.dispatchMutSpec oldNrState logEntry.op).1
          combiner := pre.combiner.insert nodeId (.loop queuedOps (lversion + 1) idx tail) }
  | execUpdateVersionUpperBound {pre : State DT} (nodeId : NodeId) (queuedOps : List ReqId)
      (lversion idx tail : Nat)
      (hcombiner : pre.combiner nodeId = some (.loop queuedOps lversion idx tail))
      (hdone : lversion = tail) :
      Transition pre
        { pre with
          versionUpperBound :=
            if tail ≤ pre.versionUpperBound then pre.versionUpperBound else tail
          combiner := pre.combiner.insert nodeId (.updatedVersion queuedOps tail) }
  | execFinish {pre : State DT} (nodeId : NodeId) (queuedOps : List ReqId)
      (tail oldLocalHead : Nat)
      (hcombiner : pre.combiner nodeId = some (.updatedVersion queuedOps tail))
      (hlocal : pre.localVersions nodeId = some oldLocalHead) :
      Transition pre
        { pre with
          localVersions := pre.localVersions.insert nodeId tail
          combiner := pre.combiner.insert nodeId .ready }
  | execFinishNoChange {pre : State DT} (nodeId : NodeId) (queuedOps : List ReqId)
      (lversion : Nat)
      (hcombiner : pre.combiner nodeId = some (.loadedLocalVersion queuedOps lversion))
      (hdone : lversion = pre.tail) :
      Transition pre { pre with combiner := pre.combiner.insert nodeId .ready }

/-- No request map and no combiner knows the id (the choice of `get_fresh_nat`,
`spec/unbounded_log.rs:1262–1325`). -/
structure State.FreshRid (s : State DT) (rid : ReqId) : Prop where
  reads : s.localReads rid = none
  updates : s.localUpdates rid = none
  combiner : ∀ nodeId c, s.combiner nodeId = some c → rid ∉ c.queuedOps

/-- A request enters with a fresh id (`lib.rs:408–434`). -/
def State.addTicket (s : State DT) (rid : ReqId) : InputOperation DT → State DT
  | .read op nodeId => { s with localReads := s.localReads.insert rid (.init op nodeId) }
  | .write op => { s with localUpdates := s.localUpdates.insert rid (.init op) }

/-- All steps of the system: machine transitions, which a client does not see, tickets
entering (`lib.rs:408–434`) and stubs leaving (`lib.rs:437–455`). -/
inductive Next : State DT → AsyncLabel DT → State DT → Prop
  | transition {pre post : State DT} (h : Transition pre post) : Next pre .internal post
  | addTicket {pre : State DT} (rid : ReqId) (input : InputOperation DT)
      (hfresh : pre.FreshRid rid) : Next pre (.start rid input) (pre.addTicket rid input)
  | consumeRead {pre : State DT} (rid : ReqId) (op : DT.ReadOperation) (nodeId : NodeId)
      (versionUpperBound : Nat) (ret : DT.Response)
      (hread : pre.localReads rid = some (.done op nodeId versionUpperBound ret)) :
      Next pre (.done rid (.read ret)) { pre with localReads := pre.localReads.remove rid }
  | consumeUpdate {pre : State DT} (rid : ReqId) (ret : DT.Response) (idx : Nat)
      (hupdate : pre.localUpdates rid = some (.done ret idx)) :
      Next pre (.done rid (.write ret)) { pre with localUpdates := pre.localUpdates.remove rid }

variable (DT) in
/-- The unbounded log as a machine over any positive number of nodes. -/
def machine : Machine (State DT) (AsyncLabel DT) where
  init := fun s ↦ ∃ numberOfNodes, 0 < numberOfNodes ∧ s = initialState DT numberOfNodes
  step := Next

end UnboundedLog

end NrKernel.NodeReplication
