import NrKernel.Lib.PartialMap
import NrKernel.Lib.Transition

/-!
# Shared vocabulary of node replication

The sequential data structure being replicated, the labels of requests entering and
leaving, and the state a log prefix computes. Log positions and versions (`LogIdx`) are
natural numbers. Model of the types in
`src/verified-node-replication/verified-node-replication/src/lib.rs` and `spec/types.rs`;
file references in this directory are relative to that `src/` directory.
-/

namespace NrKernel.NodeReplication

universe u

/-- Identifier of a replica (`lib.rs`, `NodeId`). -/
abbrev NodeId := Nat

/-- Identifier of a request (`lib.rs`, `ReqId`). -/
abbrev ReqId := Nat

/-- Specification side of the `Dispatch` trait: the sequential data structure
(`lib.rs:126–195`). The executable half is related to it by the trait's contract. -/
structure Dispatch where
  /-- view of the data structure -/
  View : Type u
  /-- operations that do not modify the view -/
  ReadOperation : Type u
  /-- operations that may modify the view -/
  WriteOperation : Type u
  /-- results of either kind of operation -/
  Response : Type u
  initSpec : View
  dispatchSpec : View → ReadOperation → Response
  dispatchMutSpec : View → WriteOperation → View × Response

variable (DT : Dispatch.{u})

/-- An operation entering the system (`lib.rs:532–536`). -/
inductive InputOperation where
  | read (op : DT.ReadOperation) (nodeId : NodeId)
  | write (op : DT.WriteOperation)

/-- A result leaving the system (`lib.rs:540–543`). -/
inductive OutputOperation where
  | read (ret : DT.Response)
  | write (ret : DT.Response)

/-- Transition labels (`lib.rs:547–551`). -/
inductive AsyncLabel where
  | internal
  | start (rid : ReqId) (input : InputOperation DT)
  | done (rid : ReqId) (output : OutputOperation DT)

variable {DT}

/-- The labels a client of the data structure observes. -/
def AsyncLabel.visible : AsyncLabel DT → Bool
  | .internal => false
  | .start _ _ => true
  | .done _ _ => true

/-- State of the data structure after the first `version` operations of the log
(`spec/simple_log.rs:373–389`). Indices past the end, which the source leaves unspecified,
do not change the state here. -/
def computeNrstateAtVersion (log : List DT.WriteOperation) : Nat → DT.View
  | 0 => DT.initSpec
  | version + 1 =>
    match log[version]? with
    | some op => (DT.dispatchMutSpec (computeNrstateAtVersion log version) op).1
    | none => computeNrstateAtVersion log version

/-- One version further one more operation of the log is applied. -/
theorem computeNrstateAtVersion_succ {log : List DT.WriteOperation} {version : Nat}
    {op : DT.WriteOperation} (h : log[version]? = some op) :
    computeNrstateAtVersion log (version + 1) =
      (DT.dispatchMutSpec (computeNrstateAtVersion log version) op).1 := by
  rw [computeNrstateAtVersion, h]

/-- Later appends do not change the state at an earlier version. -/
theorem computeNrstateAtVersion_append (log ops : List DT.WriteOperation) {version : Nat}
    (h : version ≤ log.length) :
    computeNrstateAtVersion (log ++ ops) version = computeNrstateAtVersion log version := by
  induction version with
  | zero => rfl
  | succ version ih =>
    have hlt : version < log.length := h
    simp only [computeNrstateAtVersion, List.getElem?_append_left hlt, ih (Nat.le_of_lt hlt)]

/-- A counter: a write adds to it and returns its earlier value. The smallest data structure
on which the order of operations can be observed. -/
def counter : Dispatch where
  View := Nat
  ReadOperation := Unit
  WriteOperation := Nat
  Response := Nat
  initSpec := (0 : Nat)
  dispatchSpec := fun n _ ↦ n
  dispatchMutSpec := fun n k ↦ (Nat.add n k, n)

end NrKernel.NodeReplication
