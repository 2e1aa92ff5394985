import NrKernel.NodeReplication.CombinerBuffers
import NrKernel.NodeReplication.ReplicaReads

/-!
# What a round of combining does to the slots

A round passes the slots twice: it collects the operations of the threads whose word it finds at
one, and later hands out the responses with a second index that moves only at these threads. In
between the threads it passed go on, and a slot that was empty may have an operation by then. A
record of the accesses of the round, with the slots before and after each, says what it did:
which slots it read, which operations were pending there, and what it left in the slots it
answered.
-/

namespace NrKernel.NodeReplication

open Lib

universe u

namespace Replica

variable (DT : Dispatch.{u})

/-! ## The record of a round -/

/-- An access of a round, with the slots of its replica before and after. -/
structure Access where
  pc : RoundPc
  before : ThreadId → Context DT
  after : ThreadId → Context DT

variable {DT}

/-- The thread whose word the first scan reads, with the word (`exec/replica.rs:778–808`). -/
def Access.scan (a : Access DT) : Option (ThreadId × Nat) :=
  match a.pc with
  | .collect i => if i < maxThreadsPerReplica then some (i, (a.before i).atomic) else none
  | _ => none

/-- The thread whose word the first scan finds at one, with the operation in its cell. -/
def Access.pending (a : Access DT) : Option (ThreadId × DT.WriteOperation) :=
  match a.pc with
  | .collect i =>
    if i < maxThreadsPerReplica ∧ (a.before i).atomic = 1 then
      (a.before i).batch.map fun pending ↦ (i, pending.op)
    else none
  | _ => none

/-- The thread whose slot the second scan hands back, with the word and the cell it leaves there
(`exec/replica.rs:953–973`). -/
def Access.answer (a : Access DT) : Option (ThreadId × Nat × Option (PendingOperation DT)) :=
  match a.pc with
  | .storeResponse i _ => some (i, (a.after i).atomic, (a.after i).batch)
  | _ => none

/-- The slot of a thread that gets the response to its operation. -/
def answerTo (pending : ThreadId × DT.WriteOperation) (ret : DT.Response) :
    ThreadId × Nat × Option (PendingOperation DT) :=
  (pending.1, 0, some ⟨pending.2, some ret⟩)

/-- The threads the round found with a pending operation, in the order of the scan. -/
def pendings (accesses : List (Access DT)) : List (ThreadId × DT.WriteOperation) :=
  accesses.filterMap Access.pending

/-- The threads whose words the first scan read, with the words. -/
def scans (accesses : List (Access DT)) : List (ThreadId × Nat) :=
  accesses.filterMap Access.scan

/-- The slots the second scan handed back. -/
def answers (accesses : List (Access DT)) :
    List (ThreadId × Nat × Option (PendingOperation DT)) :=
  accesses.filterMap Access.answer

/-- The accesses of the round a thread is in with the combiner lock, after one more. -/
def nextAccesses (round : Option (Round DT)) (before after : ThreadId → Context DT)
    (accesses : List (Access DT)) : List (Access DT) :=
  match round.map Round.pc with
  | none => []
  | some .loadCombiner => []
  | some .casCombiner => []
  | some pc => accesses ++ [⟨pc, before, after⟩]

/-- The accesses of all rounds after one more step. -/
def recordAccess (x : BufferedState DT) (l : Actor × Label DT) (y : BufferedState DT)
    (accesses : Actor → List (Access DT)) : Actor → List (Access DT) :=
  Function.update accesses l.1
    (nextAccesses ((x.1.nodes l.1.1).threads l.1.2).round (x.1.nodes l.1.1).contexts
      (y.1.nodes l.1.1).contexts (accesses l.1))

variable (DT) in
/-- The replicas with their buffers and a record of the accesses of the rounds. -/
def roundMachine : Machine (BufferedState DT × (Actor → List (Access DT))) (Actor × Label DT) :=
  (bufferedMachine DT).withRecord (fun _ ↦ []) recordAccess

/-- A round gave every thread its own response. -/
structure Routed (accesses : List (Access DT)) (operations : List DT.WriteOperation)
    (responses : List DT.Response) : Prop where
  /-- The first scan reads every slot once, in the order of the threads. -/
  scanned : (scans accesses).map Prod.fst = List.range maxThreadsPerReplica
  /-- It takes an operation from exactly the threads with a one. -/
  requests : ∀ p ∈ scans accesses, p.1 ∈ (pendings accesses).map Prod.fst ↔ p.2 = 1
  /-- The operations are collected in the order of the threads, one from each. -/
  ordered : ((pendings accesses).map Prod.fst).Pairwise (· < ·)
  gathered : operations = (pendings accesses).map Prod.snd
  length : responses.length = operations.length
  /-- The slots handed back are those of these threads: the word is zero, and the cell has the
  operation with the response at the same position. -/
  answered : answers accesses = List.zipWith answerTo (pendings accesses) responses
  /-- No access changes the slot of another thread. -/
  untouched : ∀ a ∈ accesses, ∀ i, i ∉ (pendings accesses).map Prod.fst → a.after i = a.before i
  /-- Only the store that hands a slot back changes its word. -/
  words : ∀ a ∈ accesses, ∀ i, (a.after i).atomic = (a.before i).atomic ∨
    ∃ k, a.pc = .storeResponse i k

/-! ## A round on its way -/

/-- The thread whose operation the round is about to copy. -/
def Round.copying (r : Round DT) : Option ThreadId :=
  match r.pc with
  | .copyOp i => some i
  | _ => none

/-- How many threads have their response. -/
def Round.answered (r : Round DT) : Nat :=
  match r.pc with
  | .respond _ k => k
  | .storeResponse _ k => k
  -- all of them, and there are no more than slots
  | .releaseCombiner => r.numOpsPerThread.length
  | _ => 0

/-- The round hands out its responses or did so. -/
def RoundPc.Responds : RoundPc → Prop
  | .respond _ _ => True
  | .storeResponse _ _ => True
  | .releaseCombiner => True
  | _ => False

/-- The round is between its two scans. -/
def RoundPc.Between : RoundPc → Prop
  | .acquireWrite _ => True
  | .appendExecute => True
  | .putData => True
  | .unlockExc => True
  | _ => False

/-- What the accesses of a round so far did, next to its lists and the slots. -/
structure Tracks (r : Round DT) (contexts : ThreadId → Context DT)
    (accesses : List (Access DT)) : Prop where
  scanned : (scans accesses).map Prod.fst = List.range r.numOpsPerThread.length
  requests : ∀ p ∈ scans accesses, p.1 ∈ (pendings accesses).map Prod.fst ↔ p.2 = 1
  threads : (pendings accesses).map Prod.fst = occupied 0 r.numOpsPerThread
  gathered : ∃ copied rest, pendings accesses = copied ++ rest ∧
    copied.map Prod.snd = r.operations ∧ rest.map Prod.fst = r.copying.toList
  slots : r.slots = (occupied 0 r.numOpsPerThread).drop r.answered
  cells : ∀ p ∈ pendings accesses, p.1 ∈ r.slots →
    ∃ resp, (contexts p.1).batch = some ⟨p.2, resp⟩
  handedBack : answers accesses =
    (List.zipWith answerTo (pendings accesses) r.responses).take r.answered
  responding : r.pc.Responds → r.numOpsPerThread.length = maxThreadsPerReplica ∧
    r.responses.length = (pendings accesses).length
  untouched : ∀ a ∈ accesses, ∀ i, i ∉ (pendings accesses).map Prod.fst → a.after i = a.before i
  words : ∀ a ∈ accesses, ∀ i, (a.after i).atomic = (a.before i).atomic ∨
    ∃ k, a.pc = .storeResponse i k

section Lists

private theorem pairwise_occupied (i : Nat) (counts : List Nat) :
    (occupied i counts).Pairwise (· < ·) := by
  induction counts generalizing i with
  | nil => exact .nil
  | cons numOps rest ih =>
    rw [occupied]
    split
    · exact ih (i + 1)
    · refine List.pairwise_cons.mpr ⟨fun j hj ↦ ?_, ih (i + 1)⟩
      exact (mem_occupied hj).1

variable {accesses : List (Access DT)} {a : Access DT}

private theorem pendings_append :
    pendings (accesses ++ [a]) = pendings accesses ++ a.pending.toList := by
  rw [pendings, List.filterMap_append]
  cases ha : a.pending <;> simp [pendings, ha]

private theorem scans_append : scans (accesses ++ [a]) = scans accesses ++ a.scan.toList := by
  rw [scans, List.filterMap_append]
  cases ha : a.scan <;> simp [scans, ha]

private theorem answers_append :
    answers (accesses ++ [a]) = answers accesses ++ a.answer.toList := by
  rw [answers, List.filterMap_append]
  cases ha : a.answer <;> simp [answers, ha]

/-- The access reads no word, collects nothing and hands no slot back. -/
structure Access.Silent (a : Access DT) : Prop where
  scan : a.scan = none
  pending : a.pending = none
  answer : a.answer = none

private theorem Access.Silent.of_pc {pc : RoundPc}
    (hscan : ∀ i, i < maxThreadsPerReplica → pc ≠ .collect i)
    (hstore : ∀ i k, pc ≠ .storeResponse i k) (before after : ThreadId → Context DT) :
    (⟨pc, before, after⟩ : Access DT).Silent := by
  cases pc with
  | collect i =>
    have hi : ¬ i < maxThreadsPerReplica := fun hlt ↦ hscan i hlt rfl
    constructor <;> simp [Access.scan, Access.pending, Access.answer, hi]
  | storeResponse i k => exact absurd rfl (hstore i k)
  | _ => exact ⟨rfl, rfl, rfl⟩

end Lists

section Accesses

variable {n : NodeId} {tid i : ThreadId} {log log' : NrLog.State DT} {node node' : Node DT}
  {phase : Phase DT} {label : Label DT} {r r' : Round DT}
  {contexts contexts' : ThreadId → Context DT} {accesses : List (Access DT)} {a : Access DT}

private theorem Tracks.untouched_snoc (h : Tracks r contexts accesses)
    (hafter : ∀ i, i ∉ (pendings (accesses ++ [a])).map Prod.fst → a.after i = a.before i) :
    ∀ b ∈ accesses ++ [a], ∀ i, i ∉ (pendings (accesses ++ [a])).map Prod.fst →
      b.after i = b.before i := by
  intro b hb i hi
  rcases List.mem_append.mp hb with hold | hnew
  · refine h.untouched b hold i fun hmem ↦ hi ?_
    rw [pendings_append, List.map_append]
    exact List.mem_append_left _ hmem
  · obtain rfl := List.mem_singleton.mp hnew
    exact hafter i hi

private theorem Tracks.words_snoc (h : Tracks r contexts accesses)
    (hafter : ∀ i, (a.after i).atomic = (a.before i).atomic ∨ ∃ k, a.pc = .storeResponse i k) :
    ∀ b ∈ accesses ++ [a], ∀ i, (b.after i).atomic = (b.before i).atomic ∨
      ∃ k, b.pc = .storeResponse i k := by
  intro b hb
  rcases List.mem_append.mp hb with hold | hnew
  · exact h.words b hold
  · obtain rfl := List.mem_singleton.mp hnew
    exact hafter

private theorem Tracks.length_pendings (h : Tracks r contexts accesses) :
    (pendings accesses).length = (occupied 0 r.numOpsPerThread).length := by
  rw [← h.threads, List.length_map]

private theorem Tracks.mem_pendings (h : Tracks r contexts accesses) (hi : i ∈ r.slots) :
    i ∈ (pendings accesses).map Prod.fst := by
  rw [h.slots] at hi
  rw [h.threads]
  exact List.mem_of_mem_drop hi

/-- The rule for an access that reads no word and hands no slot back. -/
theorem Tracks.pass (h : Tracks r contexts accesses) (hsilent : a.Silent)
    (hcounts : r'.numOpsPerThread = r.numOpsPerThread)
    (hgathered : ∃ copied rest, pendings accesses = copied ++ rest ∧
      copied.map Prod.snd = r'.operations ∧ rest.map Prod.fst = r'.copying.toList)
    (hslots : r'.slots = (occupied 0 r.numOpsPerThread).drop r'.answered)
    (hsub : ∀ i ∈ r'.slots, i ∈ r.slots)
    (hcells : ∀ i op resp, (contexts i).batch = some ⟨op, resp⟩ →
      ∃ resp', (contexts' i).batch = some ⟨op, resp'⟩)
    (hanswers : (List.zipWith answerTo (pendings accesses) r'.responses).take r'.answered =
      (List.zipWith answerTo (pendings accesses) r.responses).take r.answered)
    (hresponding : r'.pc.Responds → r.numOpsPerThread.length = maxThreadsPerReplica ∧
      r'.responses.length = (pendings accesses).length)
    (hafter : ∀ i, a.after i = a.before i ∨
      i ∈ r.slots ∧ (a.after i).atomic = (a.before i).atomic) :
    Tracks r' contexts' (accesses ++ [a]) := by
  have hpendings : pendings (accesses ++ [a]) = pendings accesses := by
    rw [pendings_append, hsilent.pending]
    exact List.append_nil _
  have hscans : scans (accesses ++ [a]) = scans accesses := by
    rw [scans_append, hsilent.scan]
    exact List.append_nil _
  refine ⟨?_, ?_, ?_, ?_, ?_, ?_, ?_, ?_, h.untouched_snoc fun i hi ↦ ?_,
    h.words_snoc fun i ↦ .inl ?_⟩
  · rw [hscans, hcounts]
    exact h.scanned
  · rw [hscans, hpendings]
    exact h.requests
  · rw [hpendings, hcounts]
    exact h.threads
  · rw [hpendings]
    exact hgathered
  · rw [hcounts]
    exact hslots
  · rw [hpendings]
    intro p hp hslot
    obtain ⟨resp, hbatch⟩ := h.cells p hp (hsub _ hslot)
    exact hcells _ _ _ hbatch
  · rw [answers_append, hsilent.answer, hpendings, hanswers, h.handedBack]
    exact List.append_nil _
  · rw [hpendings, hcounts]
    exact hresponding
  · rw [hpendings] at hi
    exact (hafter i).resolve_right fun hx ↦ hi (h.mem_pendings hx.1)
  · rcases hafter i with heq | ⟨_, hword⟩
    · rw [heq]
    · exact hword

/-- The rule for an access that keeps the lists of the round. -/
theorem Tracks.stay (h : Tracks r contexts accesses) (hsilent : a.Silent)
    (hcounts : r'.numOpsPerThread = r.numOpsPerThread) (hoperations : r'.operations = r.operations)
    (hcopying : r'.copying = r.copying) (hslots : r'.slots = r.slots)
    (hanswered : r'.answered = r.answered)
    (hresponses : r.answered = 0 ∨ r'.responses = r.responses)
    (hcells : ∀ i op resp, (contexts i).batch = some ⟨op, resp⟩ →
      ∃ resp', (contexts' i).batch = some ⟨op, resp'⟩)
    (hresponding : r'.pc.Responds → r.numOpsPerThread.length = maxThreadsPerReplica ∧
      r'.responses.length = (pendings accesses).length)
    (hafter : ∀ i, a.after i = a.before i ∨
      i ∈ r.slots ∧ (a.after i).atomic = (a.before i).atomic) :
    Tracks r' contexts' (accesses ++ [a]) := by
  refine h.pass hsilent hcounts ?_ ?_ (fun i hi ↦ hslots ▸ hi) hcells ?_ hresponding hafter
  · rw [hoperations, hcopying]
    exact h.gathered
  · rw [hslots, hanswered]
    exact h.slots
  · rw [hanswered]
    rcases hresponses with hzero | heq
    · rw [hzero, List.take_zero, List.take_zero]
    · rw [heq]

/-- No operation is on its way outside the copy of one. -/
theorem Tracks.gathered_eq (h : Tracks r contexts accesses) (hcopying : r.copying = none) :
    (pendings accesses).map Prod.snd = r.operations := by
  obtain ⟨copied, rest, heq, hcopied, hrest⟩ := h.gathered
  rw [hcopying, Option.toList_none, List.map_eq_nil_iff] at hrest
  rw [heq, hrest, List.append_nil, hcopied]

private theorem Tracks.lt_of_scanned (h : Tracks r contexts accesses) {p : ThreadId × Nat}
    (hp : p ∈ scans accesses) : p.1 < r.numOpsPerThread.length := by
  have hmem := List.mem_map_of_mem (f := Prod.fst) hp
  rw [h.scanned] at hmem
  exact List.mem_range.mp hmem

/-- The first scan finds a request. -/
theorem Tracks.collectRequest (h : Tracks r node.contexts accesses) (hpc : r.pc = .collect i)
    (hi : i < maxThreadsPerReplica) (hlength : r.numOpsPerThread.length = i)
    (hatomic : (node.contexts i).atomic = 1) {op : DT.WriteOperation}
    (hbatch : (node.contexts i).batch = some ⟨op, none⟩) {requestIds : List ReqId}
    (hcontexts : node'.contexts =
      (node.setContext i { node.contexts i with update := none }).contexts) :
    Tracks
      { r with
        pc := .copyOp i
        numOpsPerThread := r.numOpsPerThread ++ [1]
        requestIds := requestIds }
      node'.contexts (accesses ++ [⟨r.pc, node.contexts, node'.contexts⟩]) := by
  have hcell : ∀ j, (node'.contexts j).batch = (node.contexts j).batch ∧
      (node'.contexts j).atomic = (node.contexts j).atomic := by
    intro j
    rw [hcontexts]
    by_cases hj : j = i
    · subst hj
      simp only [Node.setContext, Function.update_self, and_self]
    · simp only [Node.setContext, Function.update_of_ne hj, and_self]
  have hpendings : pendings (accesses ++ [⟨r.pc, node.contexts, node'.contexts⟩]) =
      pendings accesses ++ [(i, op)] := by
    rw [pendings_append]
    simp [Access.pending, hpc, hi, hatomic, hbatch]
  have hscans : scans (accesses ++ [⟨r.pc, node.contexts, node'.contexts⟩]) =
      scans accesses ++ [(i, 1)] := by
    rw [scans_append]
    simp [Access.scan, hpc, hi, hatomic]
  have hoccupied : occupied 0 (r.numOpsPerThread ++ [1]) =
      occupied 0 r.numOpsPerThread ++ [i] := by
    rw [occupied_snoc_one, hlength]
  have hslots : r.slots = occupied 0 r.numOpsPerThread := by simp only [Round.slots, hpc]
  refine ⟨?_, ?_, ?_, ?_, ?_, ?_, ?_, fun hx ↦ hx.elim, h.untouched_snoc fun j hj ↦ ?_,
    h.words_snoc fun j ↦ .inl (hcell j).2⟩
  · rw [hscans, List.map_append, h.scanned, List.length_append, List.length_singleton,
      List.range_succ, hlength]
    rfl
  · rw [hscans, hpendings]
    intro p hp
    rw [List.map_append, List.mem_append]
    rcases List.mem_append.mp hp with hold | hnew
    · have hne : p.1 ≠ i := Nat.ne_of_lt (hlength ▸ h.lt_of_scanned hold)
      simpa [hne] using h.requests p hold
    · obtain rfl := List.mem_singleton.mp hnew
      simp
  · rw [hpendings, List.map_append, h.threads]
    exact hoccupied.symm
  · refine ⟨pendings accesses, [(i, op)], hpendings, h.gathered_eq ?_, rfl⟩
    simp only [Round.copying, hpc]
  · rfl
  · rw [hpendings]
    intro p hp _
    rw [(hcell p.1).1]
    rcases List.mem_append.mp hp with hold | hnew
    · refine h.cells p hold ?_
      rw [hslots, ← h.threads]
      exact List.mem_map_of_mem hold
    · obtain rfl := List.mem_singleton.mp hnew
      exact ⟨none, hbatch⟩
  · rw [answers_append, h.handedBack]
    simp [Access.answer, Round.answered, hpc]
  · have hne : j ≠ i := by
      rintro rfl
      refine hj ?_
      rw [hpendings]
      simp
    simp only [hcontexts, Node.setContext, Function.update_of_ne hne]

/-- The first scan passes an empty slot. -/
theorem Tracks.collectEmpty (h : Tracks r node.contexts accesses) (hpc : r.pc = .collect i)
    (hi : i < maxThreadsPerReplica) (hlength : r.numOpsPerThread.length = i)
    (hatomic : (node.contexts i).atomic = 0) :
    Tracks { r with pc := .collect (i + 1), numOpsPerThread := r.numOpsPerThread ++ [0] }
      node.contexts (accesses ++ [⟨r.pc, node.contexts, node.contexts⟩]) := by
  have hpendings : pendings (accesses ++ [⟨r.pc, node.contexts, node.contexts⟩]) =
      pendings accesses := by
    rw [pendings_append]
    simp [Access.pending, hpc, hatomic]
  have hscans : scans (accesses ++ [⟨r.pc, node.contexts, node.contexts⟩]) =
      scans accesses ++ [(i, 0)] := by
    rw [scans_append]
    simp [Access.scan, hpc, hi, hatomic]
  have hoccupied := occupied_snoc_zero r.numOpsPerThread
  have hslots : r.slots = occupied 0 r.numOpsPerThread := by simp only [Round.slots, hpc]
  refine ⟨?_, ?_, ?_, ?_, ?_, ?_, ?_, fun hx ↦ hx.elim, h.untouched_snoc fun _ _ ↦ rfl,
    h.words_snoc fun _ ↦ .inl rfl⟩
  · rw [hscans, List.map_append, h.scanned, List.length_append, List.length_singleton,
      List.range_succ, hlength]
    rfl
  · rw [hscans, hpendings]
    intro p hp
    rcases List.mem_append.mp hp with hold | hnew
    · exact h.requests p hold
    · obtain rfl := List.mem_singleton.mp hnew
      refine iff_of_false (fun hmem ↦ ?_) Nat.zero_ne_one
      rw [h.threads] at hmem
      have hlt := (mem_occupied hmem).2
      omega
  · rw [hpendings, hoccupied]
    exact h.threads
  · rw [hpendings]
    refine ⟨pendings accesses, [], (List.append_nil _).symm, h.gathered_eq ?_, rfl⟩
    simp only [Round.copying, hpc]
  · rfl
  · rw [hpendings]
    intro p hp _
    refine h.cells p hp ?_
    rw [hslots, ← h.threads]
    exact List.mem_map_of_mem hp
  · rw [answers_append, h.handedBack]
    simp [Access.answer, Round.answered, hpc]

/-- The round copies the operation that was pending when it read the word. -/
theorem Tracks.copyOp (h : Tracks r node.contexts accesses) (hpc : r.pc = .copyOp i)
    (hmem : i ∈ r.slots) {op : DT.WriteOperation} {resp : Option DT.Response}
    (hbatch : (node.contexts i).batch = some ⟨op, resp⟩) :
    Tracks { r with pc := .collect (i + 1), operations := r.operations ++ [op] } node.contexts
      (accesses ++ [⟨r.pc, node.contexts, node.contexts⟩]) := by
  have hsilent : (⟨r.pc, node.contexts, node.contexts⟩ : Access DT).Silent :=
    .of_pc (by simp [hpc]) (by simp [hpc]) _ _
  have hslots : r.slots = occupied 0 r.numOpsPerThread := by simp only [Round.slots, hpc]
  have hanswered : r.answered = 0 := by simp only [Round.answered, hpc]
  have hcopying : r.copying = some i := by simp only [Round.copying, hpc]
  obtain ⟨copied, rest, heq, hcopied, hrest⟩ := h.gathered
  rw [hcopying, Option.toList_some, List.map_eq_singleton_iff] at hrest
  obtain ⟨⟨j, op'⟩, rfl, hj⟩ := hrest
  obtain rfl : j = i := hj
  -- the cell of the slot in progress still has that operation
  have hlast : (j, op') ∈ pendings accesses := by
    rw [heq]
    exact List.mem_append_right _ (List.mem_singleton_self _)
  obtain ⟨resp', hcell⟩ := h.cells _ hlast hmem
  obtain ⟨rfl, -⟩ : op = op' ∧ resp = resp' := by
    simpa using hbatch.symm.trans hcell
  refine h.pass hsilent rfl ⟨copied ++ [(j, op)], [], ?_, ?_, rfl⟩ rfl (fun k hk ↦ ?_)
    (fun _ _ resp hx ↦ ⟨resp, hx⟩) ?_ (fun hx ↦ hx.elim) fun _ ↦ .inl rfl
  · rw [heq, List.append_nil]
  · rw [List.map_append, hcopied]
    rfl
  · rw [hslots]
    exact hk
  · rw [hanswered]
    rfl

-- The first slot left is that of the thread whose operation was collected at the position of the
-- next response.
private theorem Tracks.next_pending (h : Tracks r contexts accesses) {rest : List ThreadId}
    (hslots : r.slots = i :: rest) {op : DT.WriteOperation} {resp : Option DT.Response}
    (hbatch : (contexts i).batch = some ⟨op, resp⟩) :
    (pendings accesses)[r.answered]? = some (i, op) ∧
      rest = (occupied 0 r.numOpsPerThread).drop (r.answered + 1) := by
  have hdrop := h.slots
  rw [hslots] at hdrop
  have hthread : (occupied 0 r.numOpsPerThread)[r.answered]? = some i := by
    rw [← List.head?_drop, ← hdrop, List.head?_cons]
  rw [← h.threads, List.getElem?_map, Option.map_eq_some_iff] at hthread
  obtain ⟨⟨j, op'⟩, hpending, hj⟩ := hthread
  obtain rfl : j = i := hj
  have hmem : j ∈ r.slots := by
    rw [hslots]
    exact List.mem_cons_self
  obtain ⟨resp', hcell⟩ := h.cells _ (List.mem_of_getElem? hpending) hmem
  obtain ⟨rfl, -⟩ : op = op' ∧ resp = resp' := by
    simpa using hbatch.symm.trans hcell
  have htail := congrArg List.tail hdrop
  rw [List.tail_cons, List.tail_drop] at htail
  exact ⟨hpending, htail⟩

/-- The second scan hands a slot back. -/
theorem Tracks.storeResponse (h : Tracks r node.contexts accesses) {k numOps : Nat}
    (hpc : r.pc = .storeResponse i k) (hsome : r.numOpsPerThread[i]? = some numOps)
    (hne : numOps ≠ 0) {op : DT.WriteOperation} {ret : DT.Response}
    (hbatch : (node.contexts i).batch = some ⟨op, some ret⟩) (hret : r.responses[k]? = some ret)
    {update : Option ReqId}
    (hcontexts : node'.contexts =
      (node.setContext i { node.contexts i with atomic := 0, update := update }).contexts) :
    Tracks { r with pc := .respond (i + 1) (k + 1) } node'.contexts
      (accesses ++ [⟨r.pc, node.contexts, node'.contexts⟩]) := by
  have hothers : ∀ j, j ≠ i → node'.contexts j = node.contexts j := by
    intro j hj
    simp only [hcontexts, Node.setContext, Function.update_of_ne hj]
  have hpendings : pendings (accesses ++ [⟨r.pc, node.contexts, node'.contexts⟩]) =
      pendings accesses := by
    rw [pendings_append]
    simp [Access.pending, hpc]
  have hscans : scans (accesses ++ [⟨r.pc, node.contexts, node'.contexts⟩]) =
      scans accesses := by
    rw [scans_append]
    simp [Access.scan, hpc]
  have hanswer : answers (accesses ++ [⟨r.pc, node.contexts, node'.contexts⟩]) =
      answers accesses ++ [(i, 0, some ⟨op, some ret⟩)] := by
    rw [answers_append]
    simp [Access.answer, hpc, hcontexts, Node.setContext, hbatch]
  have hanswered : r.answered = k := by simp only [Round.answered, hpc]
  have hslots : r.slots = i :: occupied (i + 1) (r.numOpsPerThread.drop (i + 1)) := by
    simp only [Round.slots, hpc]
    exact occupied_drop_of_ne_zero hsome hne
  obtain ⟨hpending, hrest⟩ := h.next_pending hslots hbatch
  rw [hanswered] at hpending hrest
  refine ⟨?_, ?_, ?_, ?_, hrest, ?_, ?_, ?_, h.untouched_snoc fun j hj ↦ ?_,
    h.words_snoc fun j ↦ ?_⟩
  · rw [hscans]
    exact h.scanned
  · rw [hscans, hpendings]
    exact h.requests
  · rw [hpendings]
    exact h.threads
  · rw [hpendings]
    refine ⟨pendings accesses, [], (List.append_nil _).symm, h.gathered_eq ?_, rfl⟩
    simp only [Round.copying, hpc]
  · rw [hpendings]
    intro p hp hslot
    -- the slots left lie behind the one at hand
    have hlt : i < p.1 := (mem_occupied hslot).1
    rw [hothers p.1 (Nat.ne_of_gt hlt)]
    refine h.cells p hp ?_
    rw [hslots]
    exact List.mem_cons_of_mem _ hslot
  · have hnext : (List.zipWith answerTo (pendings accesses) r.responses)[k]? =
        some (i, 0, some ⟨op, some ret⟩) := by
      rw [List.getElem?_zipWith, hpending, hret]
      rfl
    rw [hanswer, hpendings, h.handedBack, hanswered]
    change _ = (List.zipWith answerTo (pendings accesses) r.responses).take (k + 1)
    rw [List.take_add_one, hnext]
    rfl
  · rw [hpendings]
    exact fun _ ↦ h.responding (by rw [hpc]; trivial)
  · refine hothers j ?_
    rintro rfl
    refine hj ?_
    rw [hpendings]
    exact List.mem_map_of_mem (List.mem_of_getElem? hpending)
  · by_cases hi : j = i
    · subst hi
      exact .inr ⟨k, hpc⟩
    · exact .inl (congrArg Context.atomic (hothers j hi))

/-- The second scan is at its end. -/
theorem Tracks.responded (h : Tracks r node.contexts accesses) {k : Nat}
    (hpc : r.pc = .respond maxThreadsPerReplica k) :
    Tracks { r with pc := .releaseCombiner } node.contexts
      (accesses ++ [⟨r.pc, node.contexts, node.contexts⟩]) := by
  have hsilent : (⟨r.pc, node.contexts, node.contexts⟩ : Access DT).Silent :=
    .of_pc (by simp [hpc]) (by simp [hpc]) _ _
  obtain ⟨hlength, hresponses⟩ := h.responding (by rw [hpc]; trivial)
  have hslots := h.slots
  simp only [Round.slots, Round.answered, hpc] at hslots
  rw [List.drop_eq_nil_of_le (Nat.le_of_eq hlength)] at hslots
  have hle : (pendings accesses).length ≤ k := by
    rw [h.length_pendings]
    exact List.drop_eq_nil_iff.mp hslots.symm
  have hcounts : (pendings accesses).length ≤ r.numOpsPerThread.length := by
    rw [h.length_pendings]
    exact length_occupied_le 0 r.numOpsPerThread
  refine h.pass hsilent rfl ⟨pendings accesses, [], (List.append_nil _).symm, h.gathered_eq ?_, rfl⟩
    ?_ (fun _ hi ↦ absurd hi List.not_mem_nil) (fun _ _ resp hx ↦ ⟨resp, hx⟩) ?_
    (fun _ ↦ ⟨hlength, hresponses⟩) fun _ ↦ .inl rfl
  · simp only [Round.copying, hpc]
  · exact (List.drop_eq_nil_of_le (length_occupied_le 0 r.numOpsPerThread)).symm
  · have hanswered : r.answered = k := by simp only [Round.answered, hpc]
    have hzip : (List.zipWith answerTo (pendings accesses) r.responses).length ≤
        (pendings accesses).length := by
      rw [List.length_zipWith]
      exact Nat.min_le_left _ _
    rw [hanswered]
    change (List.zipWith answerTo (pendings accesses) r.responses).take r.numOpsPerThread.length = _
    rw [List.take_of_length_le (hzip.trans hcounts), List.take_of_length_le (hzip.trans hle)]

/-- The rule for an access that leaves the slots alone as well. -/
theorem Tracks.skip (h : Tracks r contexts accesses)
    (hsilent : (⟨r.pc, contexts, contexts⟩ : Access DT).Silent)
    (hcounts : r'.numOpsPerThread = r.numOpsPerThread) (hoperations : r'.operations = r.operations)
    (hcopying : r'.copying = r.copying) (hslots : r'.slots = r.slots)
    (hanswered : r'.answered = r.answered)
    (hresponses : r.answered = 0 ∨ r'.responses = r.responses)
    (hresponding : r'.pc.Responds → r.numOpsPerThread.length = maxThreadsPerReplica ∧
      r'.responses.length = (pendings accesses).length) :
    Tracks r' contexts (accesses ++ [⟨r.pc, contexts, contexts⟩]) :=
  h.stay hsilent hcounts hoperations hcopying hslots hanswered hresponses
    (fun _ _ resp hx ↦ ⟨resp, hx⟩) hresponding fun _ ↦ .inl rfl

/-- Between the scans all collected slots are still to answer. -/
theorem Round.of_between (h : r.pc.Between) :
    r.copying = none ∧ r.slots = occupied 0 r.numOpsPerThread ∧ r.answered = 0 := by
  cases hpc : r.pc with
  | acquireWrite | appendExecute | putData | unlockExc =>
    simp only [Round.copying, Round.slots, Round.answered, hpc, and_self]
  | _ =>
    rw [hpc] at h
    exact h.elim

private theorem RoundPc.Between.silent {pc : RoundPc} (h : pc.Between)
    (before after : ThreadId → Context DT) : (⟨pc, before, after⟩ : Access DT).Silent := by
  cases pc with
  | acquireWrite | appendExecute | putData | unlockExc => exact ⟨rfl, rfl, rfl⟩
  | _ => exact h.elim

private theorem RoundPc.Between.not_responds {pc : RoundPc} (h : pc.Between) : ¬ pc.Responds := by
  cases pc <;> first | exact h.elim | exact id

/-- Between its scans a round leaves the slots alone. -/
theorem Tracks.between (h : Tracks r contexts accesses) (hpc : r.pc.Between)
    (hpc' : r'.pc.Between) (hcounts : r'.numOpsPerThread = r.numOpsPerThread)
    (hoperations : r'.operations = r.operations) :
    Tracks r' contexts (accesses ++ [⟨r.pc, contexts, contexts⟩]) := by
  obtain ⟨hcopying, hslots, hanswered⟩ := Round.of_between hpc
  obtain ⟨hcopying', hslots', hanswered'⟩ := Round.of_between hpc'
  refine h.skip (hpc.silent _ _) hcounts hoperations (hcopying'.trans hcopying.symm) ?_
    (hanswered'.trans hanswered.symm) (.inl hanswered) fun hx ↦ absurd hx hpc'.not_responds
  rw [hslots', hslots, hcounts]

/-- The second scan puts a response into the cell of a slot it still has to hand back. -/
theorem Tracks.respond (h : Tracks r node.contexts accesses) {k numOps : Nat}
    (hpc : r.pc = .respond i k) (hsome : r.numOpsPerThread[i]? = some numOps) (hne : numOps ≠ 0)
    {op : DT.WriteOperation} {resp : Option DT.Response} {ret : DT.Response}
    (hbatch : (node.contexts i).batch = some ⟨op, resp⟩)
    (hcontexts : node'.contexts =
      (node.setContext i { node.contexts i with batch := some ⟨op, some ret⟩ }).contexts) :
    Tracks { r with pc := .storeResponse i k } node'.contexts
      (accesses ++ [⟨r.pc, node.contexts, node'.contexts⟩]) := by
  refine h.stay (.of_pc (by simp [hpc]) (by simp [hpc]) _ _) rfl rfl ?_ ?_ ?_ (.inr rfl)
    (fun j op' resp' hcell ↦ ?_) (fun _ ↦ h.responding (by rw [hpc]; trivial)) fun j ↦ ?_
  · simp only [Round.copying, hpc]
  · simp only [Round.slots, hpc]
  · simp only [Round.answered, hpc]
  · rw [hcontexts]
    by_cases hj : j = i
    · subst hj
      obtain ⟨rfl, -⟩ : op = op' ∧ resp = resp' := by
        simpa using hbatch.symm.trans hcell
      refine ⟨some ret, ?_⟩
      simp only [Node.setContext, Function.update_self]
    · refine ⟨resp', ?_⟩
      simp only [Node.setContext, Function.update_of_ne hj, hcell]
  · simp only [hcontexts]
    by_cases hj : j = i
    · subst hj
      refine .inr ⟨?_, ?_⟩
      · simp only [Round.slots, hpc]
        exact mem_occupied_drop hsome hne
      · simp only [Node.setContext, Function.update_self]
    · exact .inl (Function.update_of_ne hj _ _)

private theorem NodeInv.length_responses (hnode : NodeInv n log node)
    (hthread : node.threads tid = ⟨phase, some r⟩) (hpc : r.pc = .respond 0 0) :
    r.responses.length = (occupied 0 r.numOpsPerThread).length := by
  have hr : (node.threads tid).round = some r := by rw [hthread]
  have hprogress := hnode.progress tid r hr
  have hheld := hnode.held tid r hr
  simp only [Round.Progress, Round.Answered, hpc, List.drop_zero] at hprogress
  simp only [Round.slots, Round.heldIds, hpc, List.drop_zero] at hheld
  exact hprogress.2.length_eq.symm.trans hheld.length_eq.symm

/-- Every access of a round with the combiner lock adds to what the round did. -/
theorem Tracks.combineStep (h : Tracks r node.contexts accesses) (hnode : NodeInv n log node)
    (hthread : node.threads tid = ⟨phase, some r⟩) (howns : r.pc.Owns)
    (hstep : CombineStep n tid log node r label log' node' (some r'))
    (hnode' : NodeInv n log' (node'.setThread tid ⟨phase, some r'⟩)) :
    Tracks r' node'.contexts (accesses ++ [⟨r.pc, node.contexts, node'.contexts⟩]) := by
  have hr : (node.threads tid).round = some r := by rw [hthread]
  have hprogress := hnode.progress tid r hr
  cases hstep with
  | combinerFree hpc =>
    rw [hpc] at howns
    exact howns.elim
  | casCombiner hpc =>
    rw [hpc] at howns
    exact howns.elim
  | collectRequest i hpc hi hatomic =>
    simp only [Round.Progress, hpc] at hprogress
    obtain ⟨_, _, _, _, _, op, hbatch, _⟩ := hnode.requested hr hpc hatomic
    exact h.collectRequest hpc hi hprogress.1 hatomic hbatch rfl
  | collectEmpty i hpc hi hatomic =>
    simp only [Round.Progress, hpc] at hprogress
    have hzero := (hnode.slots i).atomic_eq_zero hatomic
    rw [hzero]
    exact h.collectEmpty hpc hi hprogress.1 hzero
  | copyOp i op resp hpc hbatch =>
    simp only [Round.Progress, hpc] at hprogress
    refine h.copyOp hpc ?_ hbatch
    simp only [Round.slots, hpc]
    exact hprogress.2.2.1
  | collected hpc =>
    refine h.skip (.of_pc (fun i hi ↦ ?_) (by simp [hpc]) _ _) rfl rfl ?_ ?_ ?_ (.inr rfl)
      fun hx ↦ hx.elim
    · simp [hpc, Nat.ne_of_gt hi]
    · simp only [Round.copying, hpc]
    · simp only [Round.slots, hpc]
    · simp only [Round.answered, hpc]
  | acquireWrite pc lock pc' hpc hlock =>
    exact h.between (by rw [hpc]; trivial) trivial rfl rfl
  | takeData pc lock view hpc hlock => exact h.between (by rw [hpc]; trivial) trivial rfl rfl
  | appendExecute t l log' hpc ht hlog =>
    exact h.between (by rw [hpc]; trivial) (by rw [hpc]; trivial) rfl rfl
  | executed t hpc ht hfinished => exact h.between (by rw [hpc]; trivial) trivial rfl rfl
  | putData lock view hpc hdata hlock => exact h.between (by rw [hpc]; trivial) trivial rfl rfl
  | unlockExc lock hpc hlock =>
    have hlength := hnode'.length_responses (Function.update_self _ _ _) rfl
    simp only [Round.Progress, hpc] at hprogress
    refine h.skip (.of_pc (by simp [hpc]) (by simp [hpc]) _ _) rfl rfl ?_ ?_ ?_ (.inr rfl)
      fun _ ↦ ⟨hprogress.1, ?_⟩
    · simp only [Round.copying, hpc]
    · simp only [Round.slots, hpc, List.drop_zero]
    · simp only [Round.answered, hpc]
    · rw [hlength, h.length_pendings]
  | respondNone i k hpc hnone =>
    refine h.skip (.of_pc (by simp [hpc]) (by simp [hpc]) _ _) rfl rfl ?_ ?_ ?_ (.inr rfl)
      fun _ ↦ h.responding (by rw [hpc]; trivial)
    · simp only [Round.copying, hpc]
    · simp only [Round.slots, hpc]
      exact (occupied_drop_of_zero hnone).symm
    · simp only [Round.answered, hpc]
  | respond i k numOps op resp ret hpc hsome hne hbatch hret =>
    exact h.respond hpc hsome hne hbatch rfl
  | storeResponse i k hpc =>
    simp only [Round.Progress, hpc] at hprogress
    obtain ⟨_, _, ⟨numOps, hsome, hne⟩, op, ret, hbatch, hret⟩ := hprogress
    exact h.storeResponse hpc hsome hne hbatch hret rfl
  | responded k hpc => exact h.responded hpc

end Accesses

/-! ## The other threads -/

section Others

variable {n : NodeId} {tid i : ThreadId} {log log' : NrLog.State DT} {node node' : Node DT}
  {phase : Phase DT} {label : Label DT} {r r' : Round DT} {round : Option (Round DT)}
  {t : Thread DT} {rid : ReqId} {contexts contexts' : ThreadId → Context DT}
  {accesses : List (Access DT)}

/-- A round goes by the cells of the slots it still has to answer. -/
theorem Tracks.frame (h : Tracks r contexts accesses)
    (hcells : ∀ i ∈ r.slots, contexts' i = contexts i) : Tracks r contexts' accesses where
  scanned := h.scanned
  requests := h.requests
  threads := h.threads
  gathered := h.gathered
  slots := h.slots
  cells := by
    intro p hp hslot
    rw [hcells p.1 hslot]
    exact h.cells p hp hslot
  handedBack := h.handedBack
  responding := h.responding
  untouched := h.untouched
  words := h.words

/-- A thread that waits for its response leaves its slot alone. -/
theorem ClientStep.contexts_of_holds (hstep : ClientStep n tid log node phase label log' node' t)
    (hthread : node.threads tid = ⟨phase, none⟩) (hholds : node.Holds i rid) :
    node'.contexts i = node.contexts i := by
  by_cases hi : i = tid
  · subst hi
    obtain ⟨hprog, iter, hphase⟩ := hholds
    rw [hthread] at hphase
    obtain rfl : phase = .loadResponse rid iter := hphase
    cases hstep with
    | loadResponse _ _ hatomic => exact absurd hprog (not_inProgress_of_zero hatomic)
    | noResponse => rfl
  · exact hstep.contexts_eq hi

/-- A round without the combiner lock leaves the slots alone. -/
theorem CombineStep.contexts_of_not_owns
    (hstep : CombineStep n tid log node r label log' node' round) (howns : ¬ r.pc.Owns) :
    node'.contexts = node.contexts := by
  have hno : ∀ {pc : RoundPc}, r.pc = pc → ¬ pc.Owns := by
    rintro pc rfl
    exact howns
  cases hstep with
  | collectRequest i hpc => exact absurd trivial (hno hpc)
  | respond i k numOps op resp ret hpc => exact absurd trivial (hno hpc)
  | storeResponse i k hpc => exact absurd trivial (hno hpc)
  | _ => rfl

/-- A round that gets the combiner lock starts with the first slot. -/
theorem Tracks.start (hpc : r.pc = .collect 0) (hcounts : r.numOpsPerThread = [])
    (hoperations : r.operations = []) : Tracks r contexts [] where
  scanned := by
    rw [hcounts]
    rfl
  requests := by simp [scans]
  threads := by
    rw [hcounts]
    rfl
  gathered := by
    refine ⟨[], [], rfl, hoperations.symm, ?_⟩
    simp only [Round.copying, hpc]
    rfl
  slots := by
    simp only [Round.slots, Round.answered, hpc, List.drop_zero]
  cells := by simp [pendings]
  handedBack := by simp [answers, pendings]
  responding := by simp [RoundPc.Responds, hpc]
  untouched := by simp
  words := by simp

/-- A thread gets a round with the combiner lock from one with it, or at its start. -/
theorem CombineStep.owns_cases
    (hstep : CombineStep n tid log node r label log' node' (some r')) (howns : r'.pc.Owns) :
    r.pc.Owns ∨ r.pc = .casCombiner ∧ r' = { r with pc := .collect 0 } := by
  cases hstep with
  | combinerFree => exact howns.elim
  | casCombiner hpc => exact .inr ⟨hpc, rfl⟩
  | appendExecute => exact .inl howns
  | collectRequest _ hpc | collectEmpty _ hpc | copyOp _ _ _ hpc | collected hpc
  | acquireWrite _ _ _ hpc | takeData _ _ _ hpc | executed _ hpc | putData _ _ hpc
  | unlockExc _ hpc | respondNone _ _ hpc | respond _ _ _ _ _ _ hpc | storeResponse _ _ hpc
  | responded _ hpc =>
    rw [hpc]
    exact .inl trivial

/-- The accesses of a round with the combiner lock are all recorded. -/
theorem nextAccesses_of_owns (howns : r.pc.Owns) :
    nextAccesses (some r) contexts contexts' accesses =
      accesses ++ [⟨r.pc, contexts, contexts'⟩] := by
  simp only [nextAccesses, Option.map_some]
  cases hpc : r.pc with
  | loadCombiner =>
    rw [hpc] at howns
    exact howns.elim
  | casCombiner =>
    rw [hpc] at howns
    exact howns.elim
  | _ => rfl

end Others

/-! ## Runs -/

section Runs

variable {x y : BufferedState DT} {s : State DT} {label : Label DT} {actor : Actor}
  {accesses : Actor → List (Access DT)}

/-- The record of every round with the combiner lock says what the round did. -/
def RoundsInv (s : State DT) (accesses : Actor → List (Access DT)) : Prop :=
  ∀ n tid r, ((s.nodes n).threads tid).round = some r → r.pc.Owns →
    Tracks r (s.nodes n).contexts (accesses (n, tid))

private theorem RoundsInv.next (h : RoundsInv x.1 accesses) (hx : (bufferedMachine DT).Reachable x)
    (hstep : BufferedNext x (actor, label) y) :
    RoundsInv y.1 (recordAccess x (actor, label) y accesses) := by
  have hbuffered := bufferedInv_of_reachable hx
  have hinv := (inv_of_reachable hbuffered.1).1
  have hinv' := (inv_of_reachable (hbuffered.step hstep).1).1
  intro m j r hr howns
  cases hstep with
  | client n tid phase label log node t hthread hstep =>
    have hnode := hinv.nodes n
    by_cases hm : m = n
    · subst hm
      simp only [Function.update_self, Node.setThread] at hr ⊢
      by_cases hj : j = tid
      · subst hj
        simp only [Function.update_self] at hr
        rw [hstep.round_eq hr] at howns
        exact howns.elim
      · have hne : (m, j) ≠ (m, tid) := by simp [hj]
        simp only [Function.update_of_ne hj, hstep.threads_eq] at hr
        rw [recordAccess, Function.update_of_ne hne]
        refine (h m j r hr howns).frame fun i hi ↦ ?_
        obtain ⟨rid, hholds⟩ := hnode.held_of_mem hr hi
        exact hstep.contexts_of_holds hthread hholds
    · have hne : (m, j) ≠ (n, tid) := by simp [hm]
      simp only [Function.update_of_ne hm] at hr ⊢
      rw [recordAccess, Function.update_of_ne hne]
      exact h m j r hr howns
  | combine n tid phase r₀ label log node buffers r' hthread hstep =>
    have hnode := hinv.nodes n
    have hnode' := hinv'.nodes n
    have hcombine := hstep.combineStep hnode (hbuffered.2 n) hthread
    by_cases hm : m = n
    · subst hm
      simp only [Function.update_self] at hr hnode' ⊢
      by_cases hj : j = tid
      · subst hj
        have hround : r' = some r := by simpa [Node.setThread] using hr
        subst hround
        simp only [recordAccess, Function.update_self, hthread, Node.setThread]
        rcases hcombine.owns_cases howns with hold | ⟨hpc, rfl⟩
        · rw [nextAccesses_of_owns hold]
          have hr₀ : ((x.1.nodes m).threads j).round = some r₀ := by rw [hthread]
          exact (h m j r₀ hr₀ hold).combineStep hnode hthread hold hcombine hnode'
        · have hprogress := hnode.progress j r₀ (by rw [hthread])
          simp only [Round.Progress, hpc] at hprogress
          simp only [nextAccesses, Option.map_some, hpc]
          exact .start rfl hprogress.1 hprogress.2.2
      · have hne : (m, j) ≠ (m, tid) := by simp [hj]
        simp only [Node.setThread, Function.update_of_ne hj, hcombine.threads_eq] at hr ⊢
        rw [recordAccess, Function.update_of_ne hne]
        have hother := hnode.others hr howns tid r₀ (fun heq ↦ hj heq.symm) (by rw [hthread])
        rw [hcombine.contexts_of_not_owns hother]
        exact h m j r hr howns
    · have hne : (m, j) ≠ (n, tid) := by simp [hm]
      simp only [Function.update_of_ne hm] at hr ⊢
      rw [recordAccess, Function.update_of_ne hne]
      exact h m j r hr howns

private theorem roundsInv_of_reachable (h : (roundMachine DT).Reachable (x, accesses)) :
    RoundsInv x.1 accesses := by
  refine h.record_invariant (I := fun x accesses ↦ RoundsInv x.1 accesses) ?_
    fun x l y accesses hreach hI hstep ↦ hI.next hreach hstep
  rintro x ⟨⟨numReplicas, _, hx⟩, _⟩ n tid r hr
  rw [hx] at hr
  cases hr

/-- At its end a round has answered all threads it collected an operation from. -/
theorem Tracks.routed {r : Round DT} {contexts : ThreadId → Context DT}
    {accesses : List (Access DT)} (h : Tracks r contexts accesses)
    (hpc : r.pc = .releaseCombiner) : Routed accesses r.operations r.responses := by
  obtain ⟨hcounts, hlength⟩ := h.responding (by rw [hpc]; trivial)
  have hgathered := h.gathered_eq (by simp only [Round.copying, hpc])
  have hzip : (List.zipWith answerTo (pendings accesses) r.responses).length ≤ r.answered := by
    rw [List.length_zipWith, h.length_pendings]
    simp only [Round.answered, hpc]
    exact (Nat.min_le_left _ _).trans (length_occupied_le 0 r.numOpsPerThread)
  refine ⟨?_, h.requests, ?_, hgathered.symm, ?_, ?_, h.untouched, h.words⟩
  · rw [h.scanned, hcounts]
  · rw [h.threads]
    exact pairwise_occupied 0 r.numOpsPerThread
  · rw [hlength, ← hgathered, List.length_map]
  · rw [h.handedBack, List.take_of_length_le hzip]

/-- Whenever a round of combining is about to release the combiner lock, in whatever run of
whatever replicas, it has read every slot once in the order of the threads and collected exactly
the operations of those whose word was one; it has a response for each; it has handed back exactly
these slots, each with its word at zero and its cell with the operation and the response at the
same position; none of its accesses changed the slot of another thread, also of one that put its
operation there later; and the three buffers are cleared in their cells. -/
theorem combine_routes_responses {x : BufferedState DT} {accesses : Actor → List (Access DT)}
    (hreach : (roundMachine DT).Reachable (x, accesses)) {n : NodeId} {tid : ThreadId}
    {r : Round DT} (hr : ((x.1.nodes n).threads tid).round = some r)
    (hpc : r.pc = .releaseCombiner) :
    Routed (accesses (n, tid)) r.operations r.responses ∧ x.2 n = .cleared DT := by
  have howns : r.pc.Owns := Round.owns_of_eq hpc trivial
  have hbuffered := bufferedInv_of_reachable (withRecord_refines.reachable hreach)
  have hnode := (inv_of_reachable hbuffered.1).1.nodes n
  refine ⟨(roundsInv_of_reachable hreach n tid r hr howns).routed hpc, ?_⟩
  -- the only round that could have the buffers is at its end
  refine (hbuffered.2 n).cleared ?_
  rintro tid' ⟨r', hr', hhas⟩
  obtain rfl := hnode.owner tid' tid r' r hr' hr hhas.owns howns
  obtain rfl : r' = r := Option.some.inj (hr'.symm.trans hr)
  rw [hpc] at hhas
  exact hhas

/-- The first two of 64 threads have operations, the first one combines for both, and the slots of
the others stay as they were. -/
theorem combine_routes_responses_both : ∃ x accesses r,
    (roundMachine counter).Reachable (x, accesses) ∧
    ((x.1.nodes 0).threads 0).round = some r ∧ r.operations = [(5 : Nat), (7 : Nat)] ∧
    r.responses = [(0 : Nat), (5 : Nat)] ∧
    ((x.1.nodes 0).contexts 1).batch = some ⟨(7 : Nat), some (5 : Nat)⟩ ∧
    ((x.1.nodes 0).contexts 2).batch = none ∧
    Routed (accesses (0, 0)) r.operations r.responses ∧ x.2 0 = .cleared counter := by
  obtain ⟨_, ⟨labels, s, hrun, _, _, hnode⟩, _⟩ := @gets_responded counter (5 : Nat) (7 : Nat)
  have hs : (machine counter).Reachable s := ⟨_, labels, ⟨1, Nat.one_pos, rfl⟩, hrun⟩
  obtain ⟨buffers, hbuffered⟩ := exists_buffered_of_reachable hs
  obtain ⟨accesses, hreach⟩ : ∃ accesses,
      (roundMachine counter).Reachable ((s, buffers), accesses) := hbuffered.exists_record
  have hround : ((s.nodes 0).threads 0).round =
      some ⟨.releaseCombiner, [(5 : Nat), (7 : Nat)], 1 :: 1 :: List.replicate 62 0, [0, 1],
        [(0 : Nat), (5 : Nat)]⟩ := by
    rw [hnode]
    rfl
  have hanswered : ((s.nodes 0).contexts 1).batch = some ⟨(7 : Nat), some (5 : Nat)⟩ := by
    rw [hnode]
    rfl
  have huntouched : ((s.nodes 0).contexts 2).batch = none := by
    rw [hnode]
    rfl
  exact ⟨_, accesses, _, hreach, hround, rfl, rfl, hanswered, huntouched,
    combine_routes_responses hreach hround rfl⟩

end Runs

end Replica

end NrKernel.NodeReplication
