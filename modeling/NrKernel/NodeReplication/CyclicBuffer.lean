import NrKernel.Lib.CyclicIndex
import NrKernel.NodeReplication.UnboundedLog

/-!
# The cyclic buffer

The bounded memory behind the log: slots are reused modulo the buffer size, a bit per slot
tells a fresh entry from a stale one, and head, tail and local versions bound who may write
where. Model of the `CyclicBuffer` state machine in `spec/cyclicbuffer.rs`.
-/

namespace NrKernel.NodeReplication

open Lib

universe u

/-- Number of slots of the log (`constants.rs:24`). -/
def logSize : Nat := 512 * 1024

namespace CyclicBuffer

variable (DT : Dispatch.{u})

/-- Identity of a memory cell (`vstd` `CellId`). -/
abbrev CellId := Nat

/-- Content of a physical slot (`spec/types.rs:28–31`). -/
structure ConcreteLogEntry where
  op : DT.WriteOperation
  nodeId : Nat

/-- Permission to a cell: which cell it is and, once initialised, what it holds
(`vstd` `PointsTo`). -/
structure PointsTo where
  pcell : CellId
  value : Option (Option (ConcreteLogEntry DT))

/-- Ghost token for one entry of the unbounded log: its position, the machine instance it
belongs to and the entry. -/
structure LogToken where
  key : Nat
  inst : Nat
  value : UnboundedLog.LogEntry DT

/-- What the buffer stores for a logical index (`spec/cyclicbuffer.rs:50–53`). -/
structure StoredType where
  cellPerms : PointsTo DT
  logEntry : Option (LogToken DT)

variable {DT}

/-- Physical slot of a logical index (`spec/cyclicbuffer.rs:798–804`). -/
def logEntryIdx (logical : Int) (bufferSize : Nat) : Nat := slot bufferSize logical

/-- Value of the alive bit of an entry; it flips on every wrap-around
(`spec/cyclicbuffer.rs:833–839`). -/
def logEntryAliveValue (logical : Int) (bufferSize : Nat) : Bool := passBit bufferSize logical

/-- The alive bit of the slot says the entry is present (`spec/cyclicbuffer.rs:819–829`). -/
def logEntryIsAlive (aliveBits : PMap Nat Bool) (logical : Int) (bufferSize : Nat) : Prop :=
  aliveBits (logEntryIdx logical bufferSize) = some (logEntryAliveValue logical bufferSize)

/-- A stored value fits its logical index: the cell is the one of its slot and, for indices
that were ever written, holds the operation and node of the unbounded log's entry
(`spec/cyclicbuffer.rs:55–80`). -/
def StoredTypeInv (st : StoredType DT) (idx : Int) (cellId : CellId) (inst : Nat) : Prop :=
  st.cellPerms.value ≠ none ∧ st.cellPerms.pcell = cellId ∧
    (0 ≤ idx → ∃ token entry, st.logEntry = some token ∧ (token.key : Int) = idx ∧
      token.inst = inst ∧ st.cellPerms.value = some (some entry) ∧
      entry.nodeId = token.value.nodeId ∧ entry.op = token.value.op)

variable (DT) in
/-- Phase of a reader (`spec/cyclicbuffer.rs:87–97`). -/
inductive ReaderState where
  | starting (start : Nat)
  | range (start stop cur : Nat)
  | guard (start stop cur : Nat) (val : StoredType DT)

variable (DT) in
/-- Phase of a combiner (`spec/cyclicbuffer.rs:104–110`). -/
inductive CombinerState where
  | idle
  | reading (reader : ReaderState DT)
  | advancingHead (idx minLocalVersion : Nat)
  | advancingTail (observedHead : Nat)
  | appending (curIdx tail : Nat)

variable (DT) in
/-- State of the buffer (`spec/cyclicbuffer.rs:137–187`). -/
structure State where
  unboundedLogInstance : Nat
  cellIds : List CellId
  bufferSize : Nat
  numReplicas : Nat
  head : Nat
  tail : Nat
  localVersions : PMap NodeId Nat
  contents : PMap Int (StoredType DT)
  aliveBits : PMap Nat Bool
  combiner : PMap NodeId (CombinerState DT)

/-- The cell a logical index is stored in. -/
def State.cellId (s : State DT) (idx : Int) : CellId :=
  s.cellIds.getD (logEntryIdx idx s.bufferSize) 0

/-- The entry at a logical index is present. -/
def State.Alive (s : State DT) (idx : Int) : Prop :=
  logEntryIsAlive s.aliveBits idx s.bufferSize

/-- A stored value fits a logical index of this buffer. -/
def State.Fits (s : State DT) (st : StoredType DT) (idx : Int) : Prop :=
  StoredTypeInv st idx (s.cellId idx) s.unboundedLogInstance

/-- The contents without the entries of a range (`spec/cyclicbuffer.rs:557–568`). -/
def withdraw (contents : PMap Int (StoredType DT)) (lower upper : Int) :
    PMap Int (StoredType DT) :=
  fun i ↦ if lower ≤ i ∧ i < upper then none else contents i

/-- Withdrawing a range leaves the deposits outside it. -/
theorem withdraw_eq_some {contents : PMap Int (StoredType DT)} {lower upper i : Int}
    {st : StoredType DT} : withdraw contents lower upper i = some st ↔
      ¬ (lower ≤ i ∧ i < upper) ∧ contents i = some st := by
  rw [withdraw]
  split
  · simp [*]
  · simp [*]

/-- Initial states: the buffer holds the entries of the pass before the first, none of them
alive (`spec/cyclicbuffer.rs:342–364`). -/
structure Init (s : State DT) : Prop where
  replicas_pos : 0 < s.numReplicas
  size : s.bufferSize = logSize
  cells : s.cellIds.length = s.bufferSize
  head : s.head = 0
  tail : s.tail = 0
  localVersions : ∀ n, s.localVersions n = if n < s.numReplicas then some 0 else none
  contents_dom : ∀ i, (∃ st, s.contents i = some st) ↔ -(s.bufferSize : Int) ≤ i ∧ i < 0
  contents : ∀ i st, s.contents i = some st → s.Fits st i
  aliveBits : ∀ i, s.aliveBits i =
    if i < s.bufferSize then some (!logEntryAliveValue i s.bufferSize) else none
  combiner : ∀ n, s.combiner n = if n < s.numReplicas then some .idle else none

/-- Names of the transitions, with the node that takes them. -/
inductive Label where
  | readerStart (nodeId : NodeId)
  | readerEnter (nodeId : NodeId)
  | readerGuard (nodeId : NodeId)
  | readerUnguard (nodeId : NodeId)
  | readerFinish (nodeId : NodeId)
  | readerAbort (nodeId : NodeId)
  | advanceHeadStart (nodeId : NodeId)
  | advanceHeadNext (nodeId : NodeId)
  | advanceHeadFinish (nodeId : NodeId)
  | advanceHeadAbort (nodeId : NodeId)
  | advanceTailStart (nodeId : NodeId)
  | advanceTailFinish (nodeId : NodeId) (tail newTail : Nat)
  | advanceTailAbort (nodeId : NodeId)
  | appendFlipBit (nodeId : NodeId)
  | appendFinish (nodeId : NodeId)

/-- A range of the log reserved by a node. -/
structure Reservation where
  nodeId : NodeId
  start : Nat
  stop : Nat

/-- The range a transition reserves, if it reserves one. -/
def Label.reserved : Label → Option Reservation
  | .advanceTailFinish nodeId tail newTail => some ⟨nodeId, tail, newTail⟩
  | _ => none

/-- Transitions of the buffer (`spec/cyclicbuffer.rs:375–610`). Withdrawals and deposits are
modelled by their effect; that withdrawn entries are present and deposited ones absent is an
obligation on the state, not a guard. -/
inductive Next : State DT → Label → State DT → Prop
  | readerStart {pre : State DT} (nodeId : NodeId) (localHead : Nat)
      (hlocal : pre.localVersions nodeId = some localHead)
      (hcombiner : pre.combiner nodeId = some .idle) :
      Next pre (.readerStart nodeId)
        { pre with combiner := pre.combiner.insert nodeId (.reading (.starting localHead)) }
  | readerEnter {pre : State DT} (nodeId : NodeId) (start : Nat)
      (hcombiner : pre.combiner nodeId = some (.reading (.starting start))) :
      Next pre (.readerEnter nodeId)
        { pre with
          combiner := pre.combiner.insert nodeId (.reading (.range start pre.tail start)) }
  | readerGuard {pre : State DT} (nodeId : NodeId) (start stop cur : Nat) (val : StoredType DT)
      (hcombiner : pre.combiner nodeId = some (.reading (.range start stop cur)))
      (hcur : cur < stop) (halive : pre.Alive cur)
      -- an absent entry reads as an unspecified value in the source
      (hval : ∀ st, pre.contents cur = some st → val = st) :
      Next pre (.readerGuard nodeId)
        { pre with combiner := pre.combiner.insert nodeId (.reading (.guard start stop cur val)) }
  | readerUnguard {pre : State DT} (nodeId : NodeId) (start stop cur : Nat)
      (val : StoredType DT)
      (hcombiner : pre.combiner nodeId = some (.reading (.guard start stop cur val))) :
      Next pre (.readerUnguard nodeId)
        { pre with
          combiner := pre.combiner.insert nodeId (.reading (.range start stop (cur + 1))) }
  | readerFinish {pre : State DT} (nodeId : NodeId) (start stop cur old : Nat)
      (hcombiner : pre.combiner nodeId = some (.reading (.range start stop cur)))
      (hlocal : pre.localVersions nodeId = some old) (hcur : cur = stop) :
      Next pre (.readerFinish nodeId)
        { pre with
          localVersions := pre.localVersions.insert nodeId stop
          combiner := pre.combiner.insert nodeId .idle }
  | readerAbort {pre : State DT} (nodeId : NodeId) (reader : ReaderState DT)
      (hcombiner : pre.combiner nodeId = some (.reading reader))
      (hreader : ∀ start stop cur val, reader ≠ .guard start stop cur val) :
      Next pre (.readerAbort nodeId)
        { pre with combiner := pre.combiner.insert nodeId .idle }
  | advanceHeadStart {pre : State DT} (nodeId : NodeId) (localHead0 : Nat)
      (hlocal : pre.localVersions 0 = some localHead0)
      (hcombiner : pre.combiner nodeId = some .idle) :
      Next pre (.advanceHeadStart nodeId)
        { pre with combiner := pre.combiner.insert nodeId (.advancingHead 1 localHead0) }
  | advanceHeadNext {pre : State DT} (nodeId : NodeId) (idx minLocalVersion localHead : Nat)
      (hcombiner : pre.combiner nodeId = some (.advancingHead idx minLocalVersion))
      (hlocal : pre.localVersions idx = some localHead) (hidx : idx < pre.numReplicas) :
      Next pre (.advanceHeadNext nodeId)
        { pre with
          combiner := pre.combiner.insert nodeId
            (.advancingHead (idx + 1) (min minLocalVersion localHead)) }
  | advanceHeadFinish {pre : State DT} (nodeId : NodeId) (idx minLocalVersion : Nat)
      (hcombiner : pre.combiner nodeId = some (.advancingHead idx minLocalVersion))
      (hidx : idx = pre.numReplicas) :
      Next pre (.advanceHeadFinish nodeId)
        { pre with
          head := minLocalVersion
          combiner := pre.combiner.insert nodeId .idle }
  | advanceHeadAbort {pre : State DT} (nodeId : NodeId) (idx minLocalVersion : Nat)
      (hcombiner : pre.combiner nodeId = some (.advancingHead idx minLocalVersion)) :
      Next pre (.advanceHeadAbort nodeId)
        { pre with combiner := pre.combiner.insert nodeId .idle }
  | advanceTailStart {pre : State DT} (nodeId : NodeId)
      (hcombiner : pre.combiner nodeId = some .idle) :
      Next pre (.advanceTailStart nodeId)
        { pre with combiner := pre.combiner.insert nodeId (.advancingTail pre.head) }
  | advanceTailFinish {pre : State DT} (nodeId : NodeId) (observedHead newTail : Nat)
      (hcombiner : pre.combiner nodeId = some (.advancingTail observedHead))
      (hadvance : pre.tail ≤ newTail) (hspace : newTail ≤ observedHead + pre.bufferSize) :
      Next pre (.advanceTailFinish nodeId pre.tail newTail)
        { pre with
          tail := newTail
          contents := withdraw pre.contents (pre.tail - pre.bufferSize)
            (newTail - pre.bufferSize)
          combiner := pre.combiner.insert nodeId (.appending pre.tail newTail) }
  | advanceTailAbort {pre : State DT} (nodeId : NodeId) (observedHead : Nat)
      (hcombiner : pre.combiner nodeId = some (.advancingTail observedHead)) :
      Next pre (.advanceTailAbort nodeId)
        { pre with combiner := pre.combiner.insert nodeId .idle }
  | appendFlipBit {pre : State DT} (nodeId : NodeId) (curIdx tail : Nat) (bit : Bool)
      (deposited : StoredType DT)
      (hcombiner : pre.combiner nodeId = some (.appending curIdx tail))
      (hbit : pre.aliveBits (logEntryIdx curIdx pre.bufferSize) = some bit)
      (hcur : curIdx < tail) (hdeposit : pre.Fits deposited curIdx) :
      Next pre (.appendFlipBit nodeId)
        { pre with
          contents := pre.contents.insert (curIdx : Int) deposited
          aliveBits := pre.aliveBits.insert (logEntryIdx curIdx pre.bufferSize)
            (logEntryAliveValue curIdx pre.bufferSize)
          combiner := pre.combiner.insert nodeId (.appending (curIdx + 1) tail) }
  | appendFinish {pre : State DT} (nodeId : NodeId) (curIdx tail : Nat)
      (hcombiner : pre.combiner nodeId = some (.appending curIdx tail))
      (hcur : curIdx = tail) :
      Next pre (.appendFinish nodeId)
        { pre with combiner := pre.combiner.insert nodeId .idle }

variable (DT) in
/-- The cyclic buffer as a machine over any positive number of replicas. -/
def machine : Machine (State DT) Label where
  init := Init
  step := Next

end CyclicBuffer

end NrKernel.NodeReplication
