import NrKernel.NodeReplication.ReplicaLinearizability

/-!
# A replicated array of counters

The data structure the library comes with as an example of a `Dispatch` instance (`counter.rs`):
an array of 64-bit counters, an update that increments one of them twice, and a read. The
executable operations keep the contract of the trait. On the replicas, a read returns twice the
number of the updates that took effect before it, modulo the width of the counter.
-/

namespace NrKernel.NodeReplication

open Lib Lib.Linearizability

namespace ReplicatedCounter

/-- An update, of the counter at an index (`counter.rs:36–39`). -/
structure IncTwo where
  idx : Nat
  deriving DecidableEq

/-- A read of the counter at an index (`counter.rs:41–43`). -/
structure Read where
  idx : Nat

/-- Results of either (`counter.rs:53–59`). -/
inductive OpResult where
  | value (v : BitVec 64)
  | ok
  | err
  deriving DecidableEq

/-- What an array of counters holds. -/
abbrev Cells := List (BitVec 64)

/-- Arrays of counters, which the source leaves without an implementation: their operations, of
which `read` and `increment` may stop the program, with the contracts they are given
(`counter.rs:61–94`). -/
class Counter (C : Type) where
  view : C → Cells
  new : Nat → C
  read : C → Nat → Option (BitVec 64)
  increment : C → Nat → Option C
  length_new (i : Nat) : (view (new i)).length = i
  getElem?_new (i j : Nat) (h : j < i) : (view (new i))[j]? = some 0#64
  read_eq {c : C} {i : Nat} {v : BitVec 64} (h : (view c)[i]? = some v) : read c i = some v
  increment_eq {c : C} {i : Nat} {v : BitVec 64} (h : (view c)[i]? = some v) :
    ∃ c', increment c i = some c' ∧
      view c' = (view c).set i (if v.toNat < 0xffffffffffffffff then v + 1 else 0)

/-- `DataStructureType` (`counter.rs:97–101`). -/
structure DataStructureType (C : Type) where
  numCounters : Nat
  counter : C

namespace DataStructureType

variable {C : Type} [Counter C]

/-- `view` (`counter.rs:104–106`). -/
def view (d : DataStructureType C) : Cells := Counter.view d.counter

/-- `inv` (`counter.rs:108–110`). -/
def Inv (d : DataStructureType C) : Prop := d.numCounters = d.view.length

variable (C) in
/-- `init` (`counter.rs:112–123`). -/
def init (i : Nat) : DataStructureType C := ⟨i, Counter.new i⟩

/-- `update` (`counter.rs:125–153`). -/
def update (d : DataStructureType C) (op : IncTwo) : Option (OpResult × DataStructureType C) :=
  if op.idx < d.numCounters then do
    let counter ← Counter.increment d.counter op.idx
    let counter ← Counter.increment counter op.idx
    return (.ok, { d with counter := counter })
  else some (.err, d)

/-- `read` (`counter.rs:155–169`). -/
def read (d : DataStructureType C) (op : Read) : Option OpResult :=
  if op.idx < d.numCounters then do
    let v ← Counter.read d.counter op.idx
    return .value v
  else some .err

end DataStructureType

/-- What two increments make of a counter (`counter.rs:132–134`, `210–213`). -/
def plusTwo (v : BitVec 64) : BitVec 64 :=
  if v.toNat = 0xfffffffffffffffe then 0
  else if v.toNat = 0xffffffffffffffff then 1
  else v + 2

/-- `init_spec` (`counter.rs:191–193`). -/
def initSpec : Cells := [0, 0, 0, 0, 0, 0, 0, 0, 0, 0]

/-- `dispatch_spec` (`counter.rs:195–202`). -/
def dispatchSpec (ds : Cells) (op : Read) : OpResult :=
  match ds[op.idx]? with
  | some v => .value v
  | none => .err

/-- `dispatch_mut_spec` (`counter.rs:204–218`). -/
def dispatchMutSpec (ds : Cells) (op : IncTwo) : Cells × OpResult :=
  match ds[op.idx]? with
  | some v => (ds.set op.idx (plusTwo v), .ok)
  | none => (ds, .err)

/-- The data structure that is replicated (`counter.rs:174–253`). -/
abbrev dataStructure : Dispatch where
  View := Cells
  ReadOperation := Read
  WriteOperation := IncTwo
  Response := OpResult
  initSpec := initSpec
  dispatchSpec := dispatchSpec
  dispatchMutSpec := dispatchMutSpec

/-! ## The contract of the trait -/

/-- The cases of the specification are those of the carry. -/
theorem plusTwo_eq (v : BitVec 64) : plusTwo v = v + 2 := by
  unfold plusTwo
  split
  · next h =>
    apply BitVec.eq_of_toNat_eq
    rw [BitVec.toNat_add, h]
    rfl
  · split
    · next h =>
      apply BitVec.eq_of_toNat_eq
      rw [BitVec.toNat_add, h]
      rfl
    · rfl

/-- An increment wraps around as the machine's addition does. -/
theorem increment_eq (v : BitVec 64) :
    (if v.toNat < 0xffffffffffffffff then v + 1 else 0) = v + 1 := by
  split
  · rfl
  · next hge =>
    apply BitVec.eq_of_toNat_eq
    have hlt := v.isLt
    rw [BitVec.toNat_add]
    change 0 = (v.toNat + 1) % 2 ^ 64
    omega

private theorem dispatchSpec_of_lt {ds : Cells} {i : Nat} {v : BitVec 64} (h : ds[i]? = some v) :
    dispatchSpec ds ⟨i⟩ = .value v := by
  simp only [dispatchSpec, h]

private theorem dispatchSpec_of_ge {ds : Cells} {i : Nat} (h : ds[i]? = none) :
    dispatchSpec ds ⟨i⟩ = .err := by
  simp only [dispatchSpec, h]

private theorem dispatchMutSpec_of_lt {ds : Cells} {i : Nat} {v : BitVec 64} (h : ds[i]? = some v) :
    dispatchMutSpec ds ⟨i⟩ = (ds.set i (v + 2), .ok) := by
  simp only [dispatchMutSpec, h, plusTwo_eq]

private theorem dispatchMutSpec_of_ge {ds : Cells} {i : Nat} (h : ds[i]? = none) :
    dispatchMutSpec ds ⟨i⟩ = (ds, .err) := by
  simp only [dispatchMutSpec, h]

section Contract

variable {C : Type} [Counter C] {d : DataStructureType C}

/-- `init` builds the initial view (`counter.rs:220–225`). -/
theorem init_spec : (DataStructureType.init C 10).view = initSpec ∧
    (DataStructureType.init C 10).Inv := by
  refine ⟨List.ext_getElem? fun j ↦ ?_, (Counter.length_new (C := C) 10).symm⟩
  have hzeros : initSpec = List.replicate 10 0#64 := rfl
  rw [hzeros, List.getElem?_replicate, DataStructureType.view, DataStructureType.init]
  split
  · next hj => exact Counter.getElem?_new 10 j hj
  · next hj =>
    rw [List.getElem?_eq_none]
    rw [Counter.length_new]
    exact Nat.le_of_not_lt hj

/-- `update` does not stop the program, keeps the invariant and computes what the specification
says (`lib.rs:172–178`). -/
theorem update_spec (hinv : d.Inv) (op : IncTwo) :
    ∃ d' : DataStructureType C, d.update op = some ((dispatchMutSpec d.view op).2, d') ∧
      d'.Inv ∧ d'.view = (dispatchMutSpec d.view op).1 := by
  have hlength : d.numCounters = d.view.length := hinv
  by_cases hlt : op.idx < d.view.length
  · have hget : d.view[op.idx]? = some d.view[op.idx] := List.getElem?_eq_getElem hlt
    obtain ⟨c, hc, hview⟩ := Counter.increment_eq (c := d.counter) hget
    rw [increment_eq] at hview
    have hagain : (Counter.view c)[op.idx]? = some (d.view[op.idx] + 1) := by
      rw [hview]
      exact List.getElem?_set_self hlt
    obtain ⟨c', hc', hview'⟩ := Counter.increment_eq hagain
    have htwo : d.view[op.idx] + 1 + 1 = d.view[op.idx] + 2 := BitVec.add_assoc ..
    rw [increment_eq, hview, List.set_set, htwo] at hview'
    have hview' : Counter.view c' = d.view.set op.idx (d.view[op.idx] + 2) := hview'
    rw [dispatchMutSpec_of_lt hget]
    refine ⟨{ d with counter := c' }, ?_, ?_, hview'⟩
    · rw [DataStructureType.update, hlength, if_pos hlt, hc, Option.bind_eq_bind,
        Option.bind_some, hc']
      rfl
    · rw [DataStructureType.Inv, DataStructureType.view, hview', List.length_set]
      exact hlength
  · have hget : d.view[op.idx]? = none := List.getElem?_eq_none (Nat.le_of_not_lt hlt)
    rw [dispatchMutSpec_of_ge hget]
    refine ⟨d, ?_, hinv, rfl⟩
    rw [DataStructureType.update, hlength, if_neg hlt]

/-- `read` does not stop the program and returns what the specification says
(`lib.rs:164–169`). -/
theorem read_spec (hinv : d.Inv) (op : Read) :
    d.read op = some (dispatchSpec d.view op) := by
  have hlength : d.numCounters = d.view.length := hinv
  by_cases hlt : op.idx < d.view.length
  · have hget : d.view[op.idx]? = some d.view[op.idx] := List.getElem?_eq_getElem hlt
    rw [dispatchSpec_of_lt hget, DataStructureType.read, hlength, if_pos hlt,
      Counter.read_eq (c := d.counter) hget]
    rfl
  · have hget : d.view[op.idx]? = none := List.getElem?_eq_none (Nat.le_of_not_lt hlt)
    rw [dispatchSpec_of_ge hget, DataStructureType.read, hlength, if_neg hlt]

/-- The values themselves meet the contracts. -/
instance : Counter Cells where
  view := id
  new i := List.replicate i 0#64
  read cells i := cells[i]?
  increment cells i :=
    cells[i]?.map fun v ↦ cells.set i (if v.toNat < 0xffffffffffffffff then v + 1 else 0)
  length_new _ := List.length_replicate
  getElem?_new _ _ h := List.getElem?_replicate_of_lt h
  read_eq h := h
  increment_eq h := ⟨_, congrArg (Option.map _) h, rfl⟩

end Contract

/-! ## On the replicas -/

/-- The operation is an update of the counter. -/
def Increments (i : Nat) : InputOperation dataStructure → Prop
  | .read _ _ => False
  | .write op => op = IncTwo.mk i

/-- Whether a call increments the cell can be decided. -/
instance (i : Nat) : DecidablePred (Increments i)
  | .read _ _ => inferInstanceAs (Decidable False)
  | .write op => inferInstanceAs (Decidable ((op : IncTwo) = IncTwo.mk i))

/-- A call in an explanation. -/
abbrev Call := Taken (InputOperation dataStructure) (OutputOperation dataStructure)

/-- The counters after some calls. -/
def counters (ts : List Call) : Cells := (object dataStructure).exec initSpec ts

/-- The updates of a counter. -/
def increments (i : Nat) (ts : List Call) : Nat := (ts.filter fun t ↦ Increments i t.op).length

private theorem counters_read {ts : List Call} {t : Call} {op : Read} {n : NodeId}
    (h : t.op = .read op n) : counters (ts ++ [t]) = counters ts := by
  rw [counters, SeqObject.exec_snoc, h]
  rfl

private theorem counters_write {ts : List Call} {t : Call} {op : IncTwo} (h : t.op = .write op) :
    counters (ts ++ [t]) = (dispatchMutSpec (counters ts) op).1 := by
  rw [counters, SeqObject.exec_snoc, h]
  rfl

private theorem increments_snoc_of {ts : List Call} {t : Call} {i : Nat} (h : Increments i t.op) :
    increments i (ts ++ [t]) = increments i ts + 1 := by
  have htrue : decide (Increments i t.op) = true := decide_eq_true h
  rw [increments, List.filter_append, List.length_append, List.filter_singleton, htrue]
  rfl

private theorem increments_snoc_of_not {ts : List Call} {t : Call} {i : Nat}
    (h : ¬ Increments i t.op) : increments i (ts ++ [t]) = increments i ts := by
  have hfalse : decide (Increments i t.op) = false := decide_eq_false h
  rw [increments, List.filter_append, List.length_append, List.filter_singleton, hfalse]
  rfl

private theorem dispatchMutSpec_length (ds : Cells) (op : IncTwo) :
    (dispatchMutSpec ds op).1.length = ds.length := by
  rw [dispatchMutSpec]
  split
  · exact List.length_set ..
  · rfl

/-- The number of counters does not change. -/
theorem counters_length (ts : List Call) : (counters ts).length = 10 := by
  induction ts using List.reverseRecOn with
  | nil => rfl
  | append_singleton ts t ih =>
    cases hop : t.op with
    | read op n =>
      rw [counters_read hop]
      exact ih
    | write op =>
      rw [counters_write hop, dispatchMutSpec_length]
      exact ih

/-- A counter is twice the number of its updates, modulo the width of the counter. -/
theorem counters_get (ts : List Call) {i : Nat} (hi : i < 10) :
    (counters ts)[i]? = some (BitVec.ofNat 64 (2 * increments i ts)) := by
  induction ts using List.reverseRecOn with
  | nil =>
    have hall : ∀ j, j < 10 → initSpec[j]? = some 0#64 := by decide
    exact hall i hi
  | append_singleton ts t ih =>
    cases hop : t.op with
    | read op n =>
      have hfalse : ¬ Increments i t.op := by
        rw [hop]
        exact id
      rw [counters_read hop, increments_snoc_of_not hfalse]
      exact ih
    | write op =>
      rw [counters_write hop]
      by_cases hidx : op = IncTwo.mk i
      · have htrue : Increments i t.op := by
          rw [hop]
          exact hidx
        have hlt : i < (counters ts).length := by
          rw [counters_length]
          exact hi
        have hval : BitVec.ofNat 64 (2 * increments i ts) + 2 =
            BitVec.ofNat 64 (2 * (increments i ts + 1)) := by
          rw [Nat.mul_add, BitVec.ofNat_add]
          rfl
        rw [increments_snoc_of htrue, hidx, dispatchMutSpec_of_lt ih, List.getElem?_set_self hlt,
          hval]
      · have hfalse : ¬ Increments i t.op := by
          rw [hop]
          exact hidx
        have hne : op.idx ≠ i := by
          rintro rfl
          exact hidx rfl
        rw [increments_snoc_of_not hfalse, ← ih, dispatchMutSpec]
        split
        · exact List.getElem?_set_ne hne
        · rfl

/-- A call that took effect read the counters that the calls before it left. -/
theorem answer_eq {h : List (Event ReqId (InputOperation dataStructure)
    (OutputOperation dataStructure))} {ts : List Call}
    (hlin : Linearizes (object dataStructure) h ts) {k m : Nat} {rid : ReqId}
    {op : InputOperation dataStructure} {r : OutputOperation dataStructure}
    (hcall : h[k]? = some (.call rid op)) (hret : Returns h k m r) :
    ((object dataStructure).apply (counters (earlier ts k)) op).2 = r := by
  obtain ⟨us, hsplit⟩ := hlin.split hcall hret
  rw [hsplit] at hlin
  exact hlin.before.1

/-- What the replicated counters promise their clients: a read of a counter returns twice the
number of updates that some order of the calls puts before it. These are at least the updates
that returned before the read was called and at most those that were called before it returned,
and later reads count no fewer. Calls outside the array, and no others, return an error. -/
theorem replicated_counters {s₀ s : Replica.State dataStructure}
    {labels : List (Replica.Label dataStructure)}
    (hinit : (Replica.machine dataStructure).init s₀)
    (hrun : (Replica.machine dataStructure).Run s₀ labels s) :
    ∃ count : Nat → Nat → Nat,
      (∀ k m rid i n r, (Replica.history labels)[k]? = some (.call rid (.read (Read.mk i) n)) →
        Returns (Replica.history labels) k m r →
        (10 ≤ i ∧ r = .read OpResult.err ∨
          i < 10 ∧ r = .read (OpResult.value (BitVec.ofNat 64 (2 * count i k)))) ∧
        (ReturnedBy (Replica.history labels) (Increments i) k).ncard ≤ count i k ∧
        count i k ≤ (CalledBy (Replica.history labels) (Increments i) m).ncard) ∧
      (∀ i k m k' m' r r', Returns (Replica.history labels) k m r → m ≤ k' →
        Returns (Replica.history labels) k' m' r' → count i k ≤ count i k') ∧
      ∀ k m rid i r, (Replica.history labels)[k]? = some (.call rid (.write (IncTwo.mk i))) →
        Returns (Replica.history labels) k m r →
        r = .write (if i < 10 then OpResult.ok else OpResult.err) := by
  obtain ⟨hinit', hrun'⟩ := Replica.logMachine_run hinit hrun
  obtain ⟨_, ts, hlin⟩ := Replica.linearizable_of_logMachine hinit' hrun'
  refine ⟨fun i k ↦ increments i (earlier ts k), ?_, ?_, ?_⟩
  · intro k m rid i n r hcall hret
    constructor
    · rw [← answer_eq hlin hcall hret]
      by_cases hi : i < 10
      · right
        exact ⟨hi, congrArg OutputOperation.read (dispatchSpec_of_lt (counters_get _ hi))⟩
      · left
        have hge : (counters (earlier ts k)).length ≤ i := by
          rw [counters_length]
          exact Nat.le_of_not_lt hi
        exact ⟨Nat.le_of_not_lt hi, congrArg OutputOperation.read
          (dispatchSpec_of_ge (List.getElem?_eq_none hge))⟩
    · obtain ⟨us, hsplit⟩ := hlin.split hcall hret
      rw [hsplit] at hlin
      exact hlin.count_before (Increments i) hret
  · intro i k m k' m' r r' hret hle hret'
    have hearlier := hlin.earlier_prefix hret hle hret'
    exact (hearlier.sublist.filter _).length_le
  · intro k m rid i r hcall hret
    rw [← answer_eq hlin hcall hret]
    by_cases hi : i < 10
    · rw [if_pos hi]
      have hok := congrArg Prod.snd (dispatchMutSpec_of_lt (counters_get (earlier ts k) hi))
      exact congrArg (@OutputOperation.write dataStructure) hok
    · have hge : (counters (earlier ts k)).length ≤ i := by
        rw [counters_length]
        exact Nat.le_of_not_lt hi
      rw [if_neg hi]
      have herr := congrArg Prod.snd (dispatchMutSpec_of_ge (List.getElem?_eq_none hge))
      exact congrArg (@OutputOperation.write dataStructure) herr

/-- Two clients increment a counter and a third call reads it. -/
theorem replicated_counters_updates : ∃ labels s,
    (Replica.machine dataStructure).Run (Replica.initialState dataStructure 1) labels s ∧
    Replica.history labels = [.call 0 (.write (IncTwo.mk 3)), .call 1 (.write (IncTwo.mk 3)),
      .ret 0 (.write OpResult.ok), .ret 1 (.write OpResult.ok), .call 2 (.read (Read.mk 3) 0),
      .ret 2 (.read (OpResult.value 4#64))] ∧
    ∃ count : Nat → Nat → Nat, ∀ k m rid i n r,
      (Replica.history labels)[k]? = some (.call rid (.read (Read.mk i) n)) →
      Returns (Replica.history labels) k m r →
      (ReturnedBy (Replica.history labels) (Increments i) k).ncard ≤ count i k ∧
      count i k ≤ (CalledBy (Replica.history labels) (Increments i) m).ncard := by
  obtain ⟨labels, s, hrun, hhistory⟩ :=
    @Replica.exists_run_updates_read dataStructure (IncTwo.mk 3) (IncTwo.mk 3) (Read.mk 3)
  obtain ⟨count, hreads, _⟩ := replicated_counters ⟨1, by decide, rfl⟩ hrun
  exact ⟨labels, s, hrun, hhistory, count, fun k m rid i n r hcall hret ↦
    (hreads k m rid i n r hcall hret).2⟩

end ReplicatedCounter

end NrKernel.NodeReplication
