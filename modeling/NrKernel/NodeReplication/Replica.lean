import NrKernel.Lib.Linearizability
import NrKernel.NodeReplication.NrLog
import NrKernel.NodeReplication.RwLock

/-!
# Replicas and their threads

The threads of all replicas as they run `execute` and `execute_mut`: a reader waits for its
replica to catch up, combining in the meantime, and dispatches its operation under a shared
guard; a writer puts its operation into its slot, tries to combine and polls for the response.
A round of combining collects the slots, takes the data out of the reader-writer lock, appends
to the log and executes it, gives the data back and hands out the responses. Model of
`exec/replica.rs` and `exec/context.rs` over the executable log; every access of shared memory
is one step. The requests of the log are the source's ghost tokens, and the log's record of a
node's combiner is what the round in `append` and `execute` works on.
-/

namespace NrKernel.NodeReplication

open Lib Lib.Linearizability

universe u

/-- Failed polls after which a waiting thread tries to combine again (`constants.rs:35`). -/
def responseCheckInterval : Nat := 0x20000000

namespace Replica

/-- Identifier of a thread within its replica (`lib.rs`, `ThreadId`). -/
abbrev ThreadId := Nat

variable (DT : Dispatch.{u})

/-- An operation in a slot, with its response once there is one (`exec/context.rs:111–119`). -/
structure PendingOperation where
  op : DT.WriteOperation
  resp : Option DT.Response

/-- A thread's slot: the number of operations in it, the cell, and the request whose token the
slot keeps (`exec/context.rs:140–172`). -/
structure Context where
  atomic : Nat
  batch : Option (PendingOperation DT)
  update : Option ReqId

/-- The next access of a round of combining (`exec/replica.rs:459–692`, `697–986`). -/
inductive RoundPc where
  | loadCombiner
  | casCombiner
  | collect (threadIdx : Nat)
  | copyOp (threadIdx : Nat)
  | acquireWrite (lock : RwLock.Pc)
  | appendExecute
  | putData
  | unlockExc
  | respond (threadIdx respIdx : Nat)
  | storeResponse (threadIdx respIdx : Nat)
  | releaseCombiner

/-- A call of `try_combine` with the buffers of the round and the collected requests
(`exec/replica.rs:559–692`). -/
structure Round where
  pc : RoundPc
  operations : List DT.WriteOperation
  numOpsPerThread : List Nat
  requestIds : List ReqId
  responses : List DT.Response

/-- The next access of a thread outside `try_combine`. -/
inductive Phase where
  | idle
  | getVersionUpperBound (rid : ReqId) (op : DT.ReadOperation)
  | isReplicaSynced (rid : ReqId) (op : DT.ReadOperation) (versionUpperBound : Nat)
  | acquireRead (rid : ReqId) (op : DT.ReadOperation) (lock : RwLock.Pc)
  | releaseRead (rid : ReqId) (ret : DT.Response)
  | readDone (rid : ReqId) (ret : DT.Response)
  | enqueueOp (rid : ReqId) (op : DT.WriteOperation)
  | storePending (rid : ReqId)
  | loadResponse (rid : ReqId) (iter : Nat)
  | takeResponse (rid : ReqId)
  | writeDone (rid : ReqId) (ret : DT.Response)

/-- A thread, inside `try_combine` when it has a round. -/
structure Thread where
  phase : Phase DT
  round : Option (Round DT)

/-- A replica: the word of the combiner lock, the lock around the data, and the slot and the
state of each thread (`exec/replica.rs:85–160`). -/
structure Node where
  combiner : Nat
  lock : RwLock.Shared DT.View
  contexts : ThreadId → Context DT
  threads : ThreadId → Thread DT

/-- The log and the replicas. -/
structure State where
  log : NrLog.State DT
  nodes : NodeId → Node DT

/-- The operations one append reserves a range of the log for, with their requests. -/
structure Batch where
  nodeId : NodeId
  tail : Nat
  requestIds : List ReqId
  operations : List DT.WriteOperation

/-- What a step shows: a call or a return of `execute` or `execute_mut`, or the range an append
reserves. -/
inductive Label where
  | internal
  | start (rid : ReqId) (input : InputOperation DT)
  | done (rid : ReqId) (output : OutputOperation DT)
  | reserve (batch : Batch DT)

variable {DT}

/-- What an access of the log shows of a round. -/
def Label.ofLog (requestIds : List ReqId) : NrLog.Label DT → Label DT
  | .reserve nodeId tail operations => .reserve ⟨nodeId, tail, requestIds, operations⟩
  | _ => .internal

variable (DT) in
/-- A call of `try_combine`. -/
def Round.start : Round DT := ⟨.loadCombiner, [], [], [], []⟩

/-- The replica with another slot for a thread. -/
def Node.setContext (node : Node DT) (tid : ThreadId) (context : Context DT) : Node DT :=
  { node with contexts := Function.update node.contexts tid context }

/-- The replica with another state of a thread. -/
def Node.setThread (node : Node DT) (tid : ThreadId) (t : Thread DT) : Node DT :=
  { node with threads := Function.update node.threads tid t }

/-- A thread after a poll that found no response (`exec/replica.rs:1247–1254`). -/
def pollAgain (rid : ReqId) (iter : Nat) : Thread DT :=
  if iter + 1 = responseCheckInterval then ⟨.loadResponse rid 0, some (.start DT)⟩
  else ⟨.loadResponse rid (iter + 1), none⟩

/-- Accesses of a thread outside `try_combine`: `execute` and `execute_mut`
(`exec/replica.rs:1012–1108`, `1114–1261`, `exec/context.rs:236–360`). -/
inductive ClientStep (n : NodeId) (tid : ThreadId) (log : NrLog.State DT) (node : Node DT) :
    Phase DT → Label DT → NrLog.State DT → Node DT → Thread DT → Prop
  | startRead (rid : ReqId) (op : DT.ReadOperation) (hn : n < log.numReplicas)
      (htid : tid < maxThreadsPerReplica) (hreaders : log.readers rid = none)
      (htickets : log.tickets rid = none) :
      ClientStep n tid log node .idle (.start rid (.read op n))
        { log with readers := log.readers.insert rid (.called op n) } node
        ⟨.getVersionUpperBound rid op, none⟩
  | startWrite (rid : ReqId) (op : DT.WriteOperation) (hn : n < log.numReplicas)
      (htid : tid < maxThreadsPerReplica) (hreaders : log.readers rid = none)
      (htickets : log.tickets rid = none) :
      ClientStep n tid log node .idle (.start rid (.write op))
        { log with tickets := log.tickets.insert rid (.pending op) } node
        ⟨.enqueueOp rid op, none⟩
  | getVersionUpperBound (rid : ReqId) (op : DT.ReadOperation) :
      ClientStep n tid log node (.getVersionUpperBound rid op) .internal
        { log with readers := log.readers.insert rid (.syncing op n log.versionUpperBound) } node
        ⟨.isReplicaSynced rid op log.versionUpperBound, none⟩
  | synced (rid : ReqId) (op : DT.ReadOperation) (versionUpperBound version : Nat)
      (hlocal : log.localVersions n = some version) (hsynced : version ≥ versionUpperBound) :
      ClientStep n tid log node (.isReplicaSynced rid op versionUpperBound) .internal
        { log with readers := log.readers.insert rid (.synced op n versionUpperBound) } node
        ⟨.acquireRead rid op .sharedLoad, none⟩
  | notSynced (rid : ReqId) (op : DT.ReadOperation) (versionUpperBound version : Nat)
      (hlocal : log.localVersions n = some version) (hsynced : ¬ version ≥ versionUpperBound) :
      ClientStep n tid log node (.isReplicaSynced rid op versionUpperBound) .internal log node
        ⟨.isReplicaSynced rid op versionUpperBound, some (.start DT)⟩
  | acquireRead (rid : ReqId) (op : DT.ReadOperation) (pc : RwLock.Pc)
      (lock : RwLock.Shared DT.View) (pc' : RwLock.Pc) (hpc : pc ≠ .sharedGuard)
      (hlock : RwLock.Step maxThreadsPerReplica tid node.lock pc .internal lock pc') :
      ClientStep n tid log node (.acquireRead rid op pc) .internal log { node with lock := lock }
        ⟨.acquireRead rid op pc', none⟩
  | dispatch (rid : ReqId) (op : DT.ReadOperation) (view : DT.View)
      (hlock : RwLock.Step maxThreadsPerReplica tid node.lock .sharedGuard (.borrow view)
        node.lock .sharedGuard) :
      ClientStep n tid log node (.acquireRead rid op .sharedGuard) .internal
        { log with readers := log.readers.insert rid (.returned (DT.dispatchSpec view op)) } node
        ⟨.releaseRead rid (DT.dispatchSpec view op), none⟩
  | releaseRead (rid : ReqId) (ret : DT.Response) (lock : RwLock.Shared DT.View)
      (hlock : RwLock.Step maxThreadsPerReplica tid node.lock .sharedGuard .internal lock
        .idle) :
      ClientStep n tid log node (.releaseRead rid ret) .internal log { node with lock := lock }
        ⟨.readDone rid ret, none⟩
  | doneRead (rid : ReqId) (ret : DT.Response) :
      ClientStep n tid log node (.readDone rid ret) (.done rid (.read ret))
        { log with readers := log.readers.remove rid } node ⟨.idle, none⟩
  | enqueueOp (rid : ReqId) (op : DT.WriteOperation) :
      ClientStep n tid log node (.enqueueOp rid op) .internal log
        (node.setContext tid { node.contexts tid with batch := some ⟨op, none⟩ })
        ⟨.storePending rid, none⟩
  | storePending (rid : ReqId) :
      ClientStep n tid log node (.storePending rid) .internal log
        (node.setContext tid { node.contexts tid with atomic := 1, update := some rid })
        ⟨.loadResponse rid 0, some (.start DT)⟩
  | loadResponse (rid : ReqId) (iter : Nat) (hatomic : (node.contexts tid).atomic = 0) :
      ClientStep n tid log node (.loadResponse rid iter) .internal log
        (node.setContext tid { node.contexts tid with update := none })
        ⟨.takeResponse rid, none⟩
  | noResponse (rid : ReqId) (iter : Nat) (hatomic : (node.contexts tid).atomic ≠ 0) :
      ClientStep n tid log node (.loadResponse rid iter) .internal log node (pollAgain rid iter)
  | takeResponse (rid : ReqId) (op : DT.WriteOperation) (ret : DT.Response)
      (hbatch : (node.contexts tid).batch = some ⟨op, some ret⟩) :
      ClientStep n tid log node (.takeResponse rid) .internal log
        (node.setContext tid { node.contexts tid with batch := none }) ⟨.writeDone rid ret, none⟩
  | doneWrite (rid : ReqId) (ret : DT.Response) :
      ClientStep n tid log node (.writeDone rid ret) (.done rid (.write ret))
        { log with tickets := log.tickets.remove rid } node ⟨.idle, none⟩

/-- Accesses of a thread inside `try_combine` (`exec/replica.rs:459–692`, `697–986`). -/
inductive CombineStep (n : NodeId) (tid : ThreadId) (log : NrLog.State DT) (node : Node DT)
    (r : Round DT) :
    Label DT → NrLog.State DT → Node DT → Option (Round DT) → Prop
  | combinerFree (hpc : r.pc = .loadCombiner) (hfree : node.combiner = 0) :
      CombineStep n tid log node r .internal log node (some { r with pc := .casCombiner })
  | combinerTaken (hpc : r.pc = .loadCombiner) (htaken : node.combiner ≠ 0) :
      CombineStep n tid log node r .internal log node none
  -- the source stores a fixed thread id, 1
  | casCombiner (hpc : r.pc = .casCombiner) (hfree : node.combiner = 0) :
      CombineStep n tid log node r .internal log { node with combiner := 2 }
        (some { r with pc := .collect 0 })
  | casCombinerFail (hpc : r.pc = .casCombiner) (htaken : node.combiner ≠ 0) :
      CombineStep n tid log node r .internal log node none
  | collectRequest (i : Nat) (hpc : r.pc = .collect i) (hi : i < maxThreadsPerReplica)
      (hatomic : (node.contexts i).atomic = 1) :
      CombineStep n tid log node r .internal log
        (node.setContext i { node.contexts i with update := none })
        (some { r with
          pc := .copyOp i
          numOpsPerThread := r.numOpsPerThread ++ [1]
          requestIds := r.requestIds ++ (node.contexts i).update.toList })
  | collectEmpty (i : Nat) (hpc : r.pc = .collect i) (hi : i < maxThreadsPerReplica)
      (hatomic : (node.contexts i).atomic ≠ 1) :
      CombineStep n tid log node r .internal log node
        (some { r with
          pc := .collect (i + 1)
          numOpsPerThread := r.numOpsPerThread ++ [(node.contexts i).atomic] })
  | copyOp (i : Nat) (op : DT.WriteOperation) (resp : Option DT.Response)
      (hpc : r.pc = .copyOp i) (hbatch : (node.contexts i).batch = some ⟨op, resp⟩) :
      CombineStep n tid log node r .internal log node
        (some { r with pc := .collect (i + 1), operations := r.operations ++ [op] })
  | collected (hpc : r.pc = .collect maxThreadsPerReplica) :
      CombineStep n tid log node r .internal log node
        (some { r with pc := .acquireWrite .excStart })
  | acquireWrite (pc : RwLock.Pc) (lock : RwLock.Shared DT.View) (pc' : RwLock.Pc)
      (hpc : r.pc = .acquireWrite pc)
      (hlock : RwLock.Step maxThreadsPerReplica tid node.lock pc .internal lock pc') :
      CombineStep n tid log node r .internal log { node with lock := lock }
        (some { r with pc := .acquireWrite pc' })
  | takeData (pc : RwLock.Pc) (lock : RwLock.Shared DT.View) (view : DT.View)
      (hpc : r.pc = .acquireWrite pc)
      (hlock : RwLock.Step maxThreadsPerReplica tid node.lock pc (.take view) lock .excGuard) :
      CombineStep n tid log node r .internal
        ({ log with
          data := log.data.insert n view
          tickets := NrLog.collect log.tickets n r.requestIds }.setThread n
          ⟨.appendLoadTail, r.requestIds, r.operations, []⟩)
        { node with lock := lock } (some { r with pc := .appendExecute })
  | appendExecute (t : NrLog.Thread DT) (label : NrLog.Label DT) (log' : NrLog.State DT)
      (hpc : r.pc = .appendExecute) (hthread : log.threads n = some t)
      (hstep : NrLog.CombinerStep n t log label log') :
      CombineStep n tid log node r (.ofLog r.requestIds label) log' node (some r)
  | executed (t : NrLog.Thread DT) (hpc : r.pc = .appendExecute)
      (hthread : log.threads n = some t) (hfinished : t.pc = .finished) :
      CombineStep n tid log node r .internal log node
        (some { r with pc := .putData, responses := t.responses })
  | putData (lock : RwLock.Shared DT.View) (view : DT.View) (hpc : r.pc = .putData)
      (hdata : log.data n = some view)
      (hlock : RwLock.Step maxThreadsPerReplica tid node.lock .excGuard (.put view) lock
        .excRelease) :
      CombineStep n tid log node r .internal log { node with lock := lock }
        (some { r with pc := .unlockExc })
  | unlockExc (lock : RwLock.Shared DT.View) (hpc : r.pc = .unlockExc)
      (hlock : RwLock.Step maxThreadsPerReplica tid node.lock .excRelease .internal lock
        .idle) :
      CombineStep n tid log node r .internal
        ({ log with
          tickets := NrLog.distribute log.tickets (r.requestIds.zip r.responses) }.setThread n
          (.idle DT))
        { node with lock := lock } (some { r with pc := .respond 0 0 })
  | respondNone (i k : Nat) (hpc : r.pc = .respond i k)
      (hnone : r.numOpsPerThread[i]? = some 0) :
      CombineStep n tid log node r .internal log node (some { r with pc := .respond (i + 1) k })
  | respond (i k numOps : Nat) (op : DT.WriteOperation) (resp : Option DT.Response)
      (ret : DT.Response) (hpc : r.pc = .respond i k)
      (hsome : r.numOpsPerThread[i]? = some numOps) (hne : numOps ≠ 0)
      (hbatch : (node.contexts i).batch = some ⟨op, resp⟩) (hret : r.responses[k]? = some ret) :
      CombineStep n tid log node r .internal log
        (node.setContext i { node.contexts i with batch := some ⟨op, some ret⟩ })
        (some { r with pc := .storeResponse i k })
  | storeResponse (i k : Nat) (hpc : r.pc = .storeResponse i k) :
      CombineStep n tid log node r .internal log
        (node.setContext i { node.contexts i with atomic := 0, update := r.requestIds[k]? })
        (some { r with pc := .respond (i + 1) (k + 1) })
  | responded (k : Nat) (hpc : r.pc = .respond maxThreadsPerReplica k) :
      CombineStep n tid log node r .internal log node (some { r with pc := .releaseCombiner })
  | releaseCombiner (hpc : r.pc = .releaseCombiner) :
      CombineStep n tid log node r .internal log { node with combiner := 0 } none

/-- A step of one thread of one replica. -/
inductive Next (s : State DT) : Label DT → State DT → Prop
  | client (n : NodeId) (tid : ThreadId) (phase : Phase DT) (label : Label DT)
      (log : NrLog.State DT) (node : Node DT) (t : Thread DT)
      (hthread : (s.nodes n).threads tid = ⟨phase, none⟩)
      (hstep : ClientStep n tid s.log (s.nodes n) phase label log node t) :
      Next s label ⟨log, Function.update s.nodes n (node.setThread tid t)⟩
  | combine (n : NodeId) (tid : ThreadId) (phase : Phase DT) (r : Round DT) (label : Label DT)
      (log : NrLog.State DT) (node : Node DT) (r' : Option (Round DT))
      (hthread : (s.nodes n).threads tid = ⟨phase, some r⟩)
      (hstep : CombineStep n tid s.log (s.nodes n) r label log node r') :
      Next s label ⟨log, Function.update s.nodes n (node.setThread tid ⟨phase, r'⟩)⟩

variable (DT) in
/-- A fresh replica (`exec/replica.rs:236–420`). -/
def initialNode : Node DT where
  combiner := 0
  lock := ⟨some DT.initSpec, false, fun _ ↦ 0⟩
  contexts := fun _ ↦ ⟨0, none, none⟩
  threads := fun _ ↦ ⟨.idle, none⟩

variable (DT) in
/-- A fresh log with fresh replicas. -/
def initialState (numReplicas : Nat) : State DT where
  log := NrLog.initialState DT numReplicas
  nodes := fun _ ↦ initialNode DT

variable (DT) in
/-- The replicas as a machine, any positive number of them. -/
def machine : Machine (State DT) (Label DT) where
  init := fun s ↦ ∃ numReplicas, 0 < numReplicas ∧ s = initialState DT numReplicas
  step := Next

/-! ## Histories -/

/-- The call or return a step of a replica shows. -/
def Label.event : Label DT → Option (Event ReqId (InputOperation DT) (OutputOperation DT))
  | .internal => none
  | .start rid input => some (.call rid input)
  | .done rid output => some (.ret rid output)
  | .reserve _ => none

/-- The calls and returns of a run. -/
def history (labels : List (Label DT)) :
    List (Event ReqId (InputOperation DT) (OutputOperation DT)) :=
  labels.filterMap Label.event

/-- A step appends its event to the history, if it has one. -/
theorem history_snoc (labels : List (Label DT)) (label : Label DT) :
    history (labels ++ [label]) = history labels ++ label.event.toList := by
  rw [history, List.filterMap_append]
  cases h : label.event with
  | none => rw [List.filterMap_cons_none h]; rfl
  | some e => rw [List.filterMap_cons_some h]; rfl

end Replica

end NrKernel.NodeReplication
