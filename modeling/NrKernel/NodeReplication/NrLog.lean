import NrKernel.NodeReplication.CyclicBuffer

/-!
# The executable log

The log as the code runs it: shared atomics, a ring of slots with an alive bit each, one
combiner thread per replica that runs `append`, `advance_head` and `execute`, and readers that
wait for their replica to catch up. Model of `exec/log.rs` with the calls `exec/replica.rs`
makes to it; every access to shared memory is one step, and the computation up to the next
access belongs to the step before.
-/

namespace NrKernel.NodeReplication

open Lib

universe u

/-- Threads of a replica (`constants.rs:27`). -/
def maxThreadsPerReplica : Nat := 64

/-- Operations a thread may have waiting (`constants.rs:29`). -/
def maxPendingOps : Nat := 1

/-- Most operations a combiner appends at once (`constants.rs:32`). -/
def maxRequests : Nat := maxThreadsPerReplica * maxPendingOps

/-- Slots kept free for the largest append after a garbage collection is decided
(`constants.rs:45`). -/
def gcFromHead : Nat := maxPendingOps * maxThreadsPerReplica

/-- First log index the code refuses to reach (`constants.rs:54`). -/
def maxIdx : Nat := 0xfffffffff0000000

namespace NrLog

open CyclicBuffer (ConcreteLogEntry)

variable (DT : Dispatch.{u})

/-- A slot of the log (`exec/log.rs:47–77`). -/
structure BufferEntry where
  logEntry : Option (ConcreteLogEntry DT)
  alive : Bool

/-- Where `execute` returns to: the retry loop of `append`, the loop of `advance_head`, or
`combine`. -/
inductive Return where
  | append
  | advanceHead
  | combine

/-- The next access of a combiner thread, with the local variables it still needs. -/
inductive Pc where
  | idle
  | appendLoadTail
  | appendLoadHead (tail : Nat)
  | appendReserve (tail : Nat) (advance : Bool)
  | appendWriteEntry (tail idx : Nat) (advance : Bool)
  | appendStoreAlive (tail idx : Nat) (advance : Bool)
  | advanceLoadHead
  | advanceLoadTail (globalHead : Nat)
  | advanceLoadFirst (globalHead globalTail : Nat)
  | advanceLoadNext (globalHead globalTail minLocalVersion idx : Nat)
  | advanceStoreHead (globalTail minLocalVersion : Nat)
  | executeLoadLocal (ret : Return)
  | executeLoadTail (ret : Return) (localVersion : Nat)
  | executeLoadAlive (ret : Return) (localVersion globalTail : Nat)
  | executeDispatch (ret : Return) (localVersion globalTail : Nat)
  | executeFetchMax (ret : Return) (globalTail : Nat)
  | executeStoreLocal (ret : Return) (globalTail : Nat)
  | finished
  | stuck

/-- A combiner thread: the requests it collected, their operations and the responses so far
(`exec/replica.rs:559–693`). -/
structure Thread where
  pc : Pc
  requestIds : List ReqId
  operations : List DT.WriteOperation
  responses : List DT.Response

/-- A reader thread (`exec/replica.rs:1012–1108`). -/
inductive Reader where
  | called (op : DT.ReadOperation) (nodeId : NodeId)
  | syncing (op : DT.ReadOperation) (nodeId : NodeId) (versionUpperBound : Nat)
  | synced (op : DT.ReadOperation) (nodeId : NodeId) (versionUpperBound : Nat)
  | returned (ret : DT.Response)

/-- A write request: waiting to be collected, with the combiner of a node, or answered. -/
inductive Ticket where
  | pending (op : DT.WriteOperation)
  | collected (nodeId : NodeId)
  | answered (ret : DT.Response)

/-- The shared log (`exec/log.rs:105–145`), the replicas and the threads. -/
structure State where
  slog : Nat → BufferEntry DT
  versionUpperBound : Nat
  head : Nat
  tail : Nat
  localVersions : PMap NodeId Nat
  numReplicas : Nat
  data : PMap NodeId DT.View
  threads : PMap NodeId (Thread DT)
  readers : PMap ReqId (Reader DT)
  tickets : PMap ReqId (Ticket DT)

/-- What a step shows: a request entering or a result leaving, the range a successful
compare-and-swap reserves with the operations meant for it, or the entry `execute` hands to
the data structure with the index it found it at. -/
inductive Label where
  | internal
  | start (rid : ReqId) (input : InputOperation DT)
  | done (rid : ReqId) (output : OutputOperation DT)
  | reserve (nodeId : NodeId) (tail : Nat) (operations : List DT.WriteOperation)
  | dispatch (nodeId : NodeId) (idx : Nat) (entry : ConcreteLogEntry DT)

variable {DT}

/-- What a client sees of a step. -/
def Label.async : Label DT → AsyncLabel DT
  | .internal => .internal
  | .start rid input => .start rid input
  | .done rid output => .done rid output
  | .reserve _ _ _ => .internal
  | .dispatch _ _ _ => .internal

/-- Slot of a logical index (`exec/log.rs:514–525`). -/
def index (logical : Nat) : Nat := logical % logSize

/-- Alive bit of an entry that is present (`exec/log.rs:535–543`). -/
def isAliveValue (logical : Nat) : Bool := logical / logSize % 2 == 0

variable (DT) in
/-- A thread that combines nothing. -/
def Thread.idle : Thread DT := ⟨.idle, [], [], []⟩

/-- The combiner holds the write lock of its replica (`exec/replica.rs:601–664`). -/
def Pc.Locked : Pc → Prop
  | .idle => False
  | .finished => False
  | _ => True

/-- Where `execute` continues in its caller. -/
def Return.resume : Return → Pc
  | .append => .appendLoadTail
  | .advanceHead => .advanceLoadHead
  | .combine => .finished

/-- After both loads of `append`: help first when the log is nearly full, spin for ever at the
last index, or try to reserve (`exec/log.rs:796–857`). -/
def appendChecked (tail head nops : Nat) : Pc :=
  if tail > head + (logSize - gcFromHead) then .executeLoadLocal .append
  else if tail + nops ≥ maxIdx then .stuck
  else .appendReserve tail (decide (tail + nops > head + (logSize - gcFromHead)))

/-- The write loop of `append` and its end (`exec/log.rs:930–1056`). -/
def appendNext (nops tail idx : Nat) (advance : Bool) : Pc :=
  if idx < nops then .appendWriteEntry tail idx advance
  else if advance then .advanceLoadHead
  else .executeLoadLocal .combine

/-- The scan of `find_min_local_version` and the test after it (`exec/log.rs:1144–1180`,
`1618–1673`). -/
def advanceNext (numReplicas globalHead globalTail minLocalVersion idx : Nat) : Pc :=
  if idx < numReplicas then .advanceLoadNext globalHead globalTail minLocalVersion idx
  else if minLocalVersion = globalHead then .executeLoadLocal .advanceHead
  else .advanceStoreHead globalTail minLocalVersion

/-- After the head is stored: enough room, or help and try again (`exec/log.rs:1187–1208`). -/
def advanceStored (globalTail minLocalVersion : Nat) : Pc :=
  if globalTail < minLocalVersion + logSize - gcFromHead then .executeLoadLocal .combine
  else .executeLoadLocal .advanceHead

/-- The loop test of `execute` (`exec/log.rs:1380`). -/
def executeNext (ret : Return) (localVersion globalTail : Nat) : Pc :=
  if localVersion < globalTail then .executeLoadAlive ret localVersion globalTail
  else .executeFetchMax ret globalTail

/-- After both loads of `execute`: nothing to do, or enter the loop
(`exec/log.rs:1335–1380`). -/
def executeChecked (ret : Return) (localVersion globalTail : Nat) : Pc :=
  if localVersion = globalTail then ret.resume else executeNext ret localVersion globalTail

/-- The responses after an entry is applied: kept when the entry is the node's own
(`exec/log.rs:1480–1525`). -/
def pushResponse (responses : List DT.Response) (nodeId : NodeId) (entry : ConcreteLogEntry DT)
    (res : DT.Response) : List DT.Response :=
  if entry.nodeId = nodeId then responses ++ [res] else responses

/-- The tickets of collected requests (`exec/replica.rs:697–830`). -/
def collect (tickets : PMap ReqId (Ticket DT)) (nodeId : NodeId) (requestIds : List ReqId) :
    PMap ReqId (Ticket DT) :=
  fun rid ↦ if rid ∈ requestIds then some (.collected nodeId) else tickets rid

/-- The tickets after responses are handed out, first request first
(`exec/replica.rs:836–985`). -/
def distribute (tickets : PMap ReqId (Ticket DT)) : List (ReqId × DT.Response) →
    PMap ReqId (Ticket DT)
  | [] => tickets
  | (rid, ret) :: rest => distribute (tickets.insert rid (.answered ret)) rest

/-- The state with another thread for a node. -/
def State.setThread (s : State DT) (nodeId : NodeId) (t : Thread DT) : State DT :=
  { s with threads := s.threads.insert nodeId t }

/-- A thread is the one a state was given for its node. -/
theorem State.eq_of_setThread {s : State DT} {nodeId : NodeId} {t t' : Thread DT}
    (h : (s.setThread nodeId t).threads nodeId = some t') : t' = t :=
  (Option.some.inj ((PMap.insert_self _ _ _).symm.trans h)).symm

/-- The state with a node's thread at another access. -/
def State.goto (s : State DT) (nodeId : NodeId) (t : Thread DT) (pc : Pc) : State DT :=
  s.setThread nodeId { t with pc := pc }

/-- Steps of the combiner threads that access the shared log. -/
inductive CombinerStep (nodeId : NodeId) (t : Thread DT) :
    State DT → Label DT → State DT → Prop
  | appendLoadTail {pre : State DT} (hpc : t.pc = .appendLoadTail) :
      CombinerStep nodeId t pre .internal (pre.goto nodeId t (.appendLoadHead pre.tail))
  | appendLoadHead {pre : State DT} (tail : Nat) (hpc : t.pc = .appendLoadHead tail) :
      CombinerStep nodeId t pre .internal
        (pre.goto nodeId t (appendChecked tail pre.head t.operations.length))
  | reserve {pre : State DT} (tail : Nat) (advance : Bool)
      (hpc : t.pc = .appendReserve tail advance) (htail : pre.tail = tail) :
      CombinerStep nodeId t pre (.reserve nodeId tail t.operations)
        ({ pre with tail := tail + t.operations.length }.goto nodeId t
          (appendNext t.operations.length tail 0 advance))
  -- the weak compare-and-swap may also fail on an unchanged tail
  | reserveFail {pre : State DT} (tail : Nat) (advance : Bool)
      (hpc : t.pc = .appendReserve tail advance) :
      CombinerStep nodeId t pre .internal (pre.goto nodeId t .appendLoadTail)
  | writeEntry {pre : State DT} (tail idx : Nat) (advance : Bool) (op : DT.WriteOperation)
      (hpc : t.pc = .appendWriteEntry tail idx advance) (hop : t.operations[idx]? = some op) :
      CombinerStep nodeId t pre .internal
        ({ pre with
          slog := Function.update pre.slog (index (tail + idx))
            { pre.slog (index (tail + idx)) with logEntry := some ⟨op, nodeId⟩ } }.goto nodeId t
          (.appendStoreAlive tail idx advance))
  | storeAlive {pre : State DT} (tail idx : Nat) (advance : Bool)
      (hpc : t.pc = .appendStoreAlive tail idx advance) :
      CombinerStep nodeId t pre .internal
        ({ pre with
          slog := Function.update pre.slog (index (tail + idx))
            { pre.slog (index (tail + idx)) with
              alive := isAliveValue (tail + idx) } }.goto nodeId t
          (appendNext t.operations.length tail (idx + 1) advance))
  | advanceLoadHead {pre : State DT} (hpc : t.pc = .advanceLoadHead) :
      CombinerStep nodeId t pre .internal (pre.goto nodeId t (.advanceLoadTail pre.head))
  | advanceLoadTail {pre : State DT} (globalHead : Nat)
      (hpc : t.pc = .advanceLoadTail globalHead) :
      CombinerStep nodeId t pre .internal
        (pre.goto nodeId t (.advanceLoadFirst globalHead pre.tail))
  | advanceLoadFirst {pre : State DT} (globalHead globalTail version : Nat)
      (hpc : t.pc = .advanceLoadFirst globalHead globalTail)
      (hlocal : pre.localVersions 0 = some version) :
      CombinerStep nodeId t pre .internal
        (pre.goto nodeId t (advanceNext pre.numReplicas globalHead globalTail version 1))
  | advanceLoadNext {pre : State DT} (globalHead globalTail minLocalVersion idx version : Nat)
      (hpc : t.pc = .advanceLoadNext globalHead globalTail minLocalVersion idx)
      (hlocal : pre.localVersions idx = some version) :
      CombinerStep nodeId t pre .internal
        (pre.goto nodeId t (advanceNext pre.numReplicas globalHead globalTail
          (if version < minLocalVersion then version else minLocalVersion) (idx + 1)))
  | storeHead {pre : State DT} (globalTail minLocalVersion : Nat)
      (hpc : t.pc = .advanceStoreHead globalTail minLocalVersion) :
      CombinerStep nodeId t pre .internal
        ({ pre with head := minLocalVersion }.goto nodeId t
          (advanceStored globalTail minLocalVersion))
  | executeLoadLocal {pre : State DT} (ret : Return) (version : Nat)
      (hpc : t.pc = .executeLoadLocal ret) (hlocal : pre.localVersions nodeId = some version) :
      CombinerStep nodeId t pre .internal (pre.goto nodeId t (.executeLoadTail ret version))
  | executeLoadTail {pre : State DT} (ret : Return) (version : Nat)
      (hpc : t.pc = .executeLoadTail ret version) :
      CombinerStep nodeId t pre .internal
        (pre.goto nodeId t (executeChecked ret version pre.tail))
  | executeLoadAlive {pre : State DT} (ret : Return) (version globalTail : Nat)
      (hpc : t.pc = .executeLoadAlive ret version globalTail) :
      CombinerStep nodeId t pre .internal
        (pre.goto nodeId t
          (if (pre.slog (index version)).alive = isAliveValue version
            then .executeDispatch ret version globalTail
            else .executeLoadAlive ret version globalTail))
  | dispatch {pre : State DT} (ret : Return) (version globalTail : Nat)
      (entry : ConcreteLogEntry DT) (view : DT.View)
      (hpc : t.pc = .executeDispatch ret version globalTail)
      (hentry : (pre.slog (index version)).logEntry = some entry)
      (hdata : pre.data nodeId = some view) :
      CombinerStep nodeId t pre (.dispatch nodeId version entry)
        ({ pre with
          data := pre.data.insert nodeId (DT.dispatchMutSpec view entry.op).1 }.setThread nodeId
          { t with
            pc := executeNext ret (version + 1) globalTail
            responses := pushResponse t.responses nodeId entry
              (DT.dispatchMutSpec view entry.op).2 })
  -- unwrapping an empty slot
  | dispatchPanic {pre : State DT} (ret : Return) (version globalTail : Nat)
      (hpc : t.pc = .executeDispatch ret version globalTail)
      (hentry : (pre.slog (index version)).logEntry = none) :
      CombinerStep nodeId t pre .internal (pre.goto nodeId t .stuck)
  | fetchMax {pre : State DT} (ret : Return) (globalTail : Nat)
      (hpc : t.pc = .executeFetchMax ret globalTail) :
      CombinerStep nodeId t pre .internal
        ({ pre with versionUpperBound := max pre.versionUpperBound globalTail }.goto nodeId t
          (.executeStoreLocal ret globalTail))
  | storeLocal {pre : State DT} (ret : Return) (globalTail : Nat)
      (hpc : t.pc = .executeStoreLocal ret globalTail) :
      CombinerStep nodeId t pre .internal
        ({ pre with localVersions := pre.localVersions.insert nodeId globalTail }.goto nodeId t
          ret.resume)

/-- Steps of the readers, which hold their replica's read lock while they apply an operation
(`exec/replica.rs:1040–1092`). -/
inductive ReaderStep (rid : ReqId) : State DT → State DT → Prop
  | getVersionUpperBound {pre : State DT} (op : DT.ReadOperation) (nodeId : NodeId)
      (hread : pre.readers rid = some (.called op nodeId)) :
      ReaderStep rid pre
        { pre with readers := pre.readers.insert rid (.syncing op nodeId pre.versionUpperBound) }
  | isReplicaSyncedForReads {pre : State DT} (op : DT.ReadOperation) (nodeId : NodeId)
      (versionUpperBound version : Nat)
      (hread : pre.readers rid = some (.syncing op nodeId versionUpperBound))
      (hlocal : pre.localVersions nodeId = some version) :
      ReaderStep rid pre
        { pre with
          readers := pre.readers.insert rid
            (if version ≥ versionUpperBound then .synced op nodeId versionUpperBound
              else .syncing op nodeId versionUpperBound) }
  | apply {pre : State DT} (op : DT.ReadOperation) (nodeId : NodeId) (versionUpperBound : Nat)
      (t : Thread DT) (view : DT.View)
      (hread : pre.readers rid = some (.synced op nodeId versionUpperBound))
      (hthread : pre.threads nodeId = some t) (hlock : ¬ t.pc.Locked)
      (hdata : pre.data nodeId = some view) :
      ReaderStep rid pre
        { pre with readers := pre.readers.insert rid (.returned (DT.dispatchSpec view op)) }

/-- All steps: combiners and readers, requests entering and results leaving, and the ends of
`combine` that hand requests and responses over. -/
inductive Next : State DT → Label DT → State DT → Prop
  | combiner {pre post : State DT} {label : Label DT} (nodeId : NodeId) (t : Thread DT)
      (hthread : pre.threads nodeId = some t) (h : CombinerStep nodeId t pre label post) :
      Next pre label post
  | reader {pre post : State DT} (rid : ReqId) (h : ReaderStep rid pre post) :
      Next pre .internal post
  | startRead {pre : State DT} (rid : ReqId) (op : DT.ReadOperation) (nodeId : NodeId)
      (hreaders : pre.readers rid = none) (htickets : pre.tickets rid = none) :
      Next pre (.start rid (.read op nodeId))
        { pre with readers := pre.readers.insert rid (.called op nodeId) }
  | startWrite {pre : State DT} (rid : ReqId) (op : DT.WriteOperation)
      (hreaders : pre.readers rid = none) (htickets : pre.tickets rid = none) :
      Next pre (.start rid (.write op))
        { pre with tickets := pre.tickets.insert rid (.pending op) }
  | doneRead {pre : State DT} (rid : ReqId) (ret : DT.Response)
      (hread : pre.readers rid = some (.returned ret)) :
      Next pre (.done rid (.read ret)) { pre with readers := pre.readers.remove rid }
  | doneWrite {pre : State DT} (rid : ReqId) (ret : DT.Response)
      (hticket : pre.tickets rid = some (.answered ret)) :
      Next pre (.done rid (.write ret)) { pre with tickets := pre.tickets.remove rid }
  | collect {pre : State DT} (nodeId : NodeId) (t : Thread DT) (requestIds : List ReqId)
      (operations : List DT.WriteOperation) (hthread : pre.threads nodeId = some t)
      (hpc : t.pc = .idle) (hnodup : requestIds.Nodup) (hmax : operations.length ≤ maxRequests)
      (htickets : List.Forall₂ (fun rid op ↦ pre.tickets rid = some (.pending op)) requestIds
        operations) :
      Next pre .internal
        ({ pre with tickets := collect pre.tickets nodeId requestIds }.setThread nodeId
          ⟨.appendLoadTail, requestIds, operations, []⟩)
  | callExecute {pre : State DT} (nodeId : NodeId) (t : Thread DT)
      (hthread : pre.threads nodeId = some t) (hpc : t.pc = .idle) :
      Next pre .internal (pre.setThread nodeId ⟨.executeLoadLocal .combine, [], [], []⟩)
  | distribute {pre : State DT} (nodeId : NodeId) (t : Thread DT)
      (hthread : pre.threads nodeId = some t) (hpc : t.pc = .finished) :
      Next pre .internal
        ({ pre with
          tickets := distribute pre.tickets (t.requestIds.zip t.responses) }.setThread nodeId
          (.idle DT))

variable (DT) in
/-- A fresh log (`exec/log.rs:211–512`): empty slots, none alive. -/
def initialState (numReplicas : Nat) : State DT where
  slog := fun _ ↦ ⟨none, false⟩
  versionUpperBound := 0
  head := 0
  tail := 0
  localVersions := fun n ↦ if n < numReplicas then some 0 else none
  numReplicas := numReplicas
  data := fun n ↦ if n < numReplicas then some DT.initSpec else none
  threads := fun n ↦ if n < numReplicas then some (.idle DT) else none
  readers := .empty
  tickets := .empty

variable (DT) in
/-- The executable log as a machine over any positive number of replicas. -/
def machine : Machine (State DT) (Label DT) where
  init := fun s ↦ ∃ numReplicas, 0 < numReplicas ∧ s = initialState DT numReplicas
  step := Next

end NrLog

end NrKernel.NodeReplication
