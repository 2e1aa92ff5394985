import NrKernel.NodeReplication.SlotHandOver

/-!
# Buffers of a combiner

A replica keeps three buffers between its rounds of combining: for the collected operations, for
their number in each slot and for the responses. A round takes them out of their cells when it
gets the combiner lock, fills them, lends the responses to the log, and clears them and puts them
back before it releases the lock. With the buffers next to the replicas a round starts from what
it finds in the cells, which the machine of the replicas has empty; the steps are the same.
-/

namespace NrKernel.NodeReplication

open Lib

universe u

namespace Replica

variable (DT : Dispatch.{u})

/-- The cells of the three buffers, empty while a round has the buffers
(`exec/replica.rs:170–192`). -/
structure Buffers where
  collectedOperations : Option (List DT.WriteOperation)
  collectedOperationsPerThread : Option (List Nat)
  responses : Option (List DT.Response)

/-- The cleared buffers in their cells (`exec/replica.rs:296–302`, `673–683`). -/
def Buffers.cleared : Buffers DT := ⟨some [], some [], some []⟩

/-- The cells after a round took the buffers (`exec/replica.rs:591–598`). -/
def Buffers.taken : Buffers DT := ⟨none, none, none⟩

/-- The replicas with the buffers of each. -/
abbrev BufferedState := State DT × (NodeId → Buffers DT)

/-- A thread of a replica. -/
abbrev Actor := NodeId × ThreadId

variable {DT}

/-- The access takes the buffers, lends one to the log or puts them back. -/
def MovesBuffers (pc : RoundPc) (round : Option (Round DT)) : Prop :=
  match pc, round.map Round.pc with
  | .casCombiner, some _ => True
  | .acquireWrite _, some .appendExecute => True
  | .respond _ _, some .releaseCombiner => True
  | _, _ => False

/-- Accesses of a thread inside `try_combine` with the buffers (`exec/replica.rs:459–692`). Only the
thread with the combiner lock moves them, so a move goes with the access next to it. -/
inductive BufferedStep (n : NodeId) (tid : ThreadId) (log : NrLog.State DT) (node : Node DT)
    (buffers : Buffers DT) (r : Round DT) :
    Label DT → NrLog.State DT → Node DT → Buffers DT → Option (Round DT) → Prop
  | take (operations : List DT.WriteOperation) (numOpsPerThread : List Nat)
      (responses : List DT.Response) (hpc : r.pc = .casCombiner) (hfree : node.combiner = 0)
      (hbuffers : buffers = ⟨some operations, some numOpsPerThread, some responses⟩) :
      BufferedStep n tid log node buffers r .internal log { node with combiner := 2 } (.taken DT)
        (some { r with
          pc := .collect 0
          operations := operations
          numOpsPerThread := numOpsPerThread
          responses := responses })
  | append (pc : RwLock.Pc) (lock : RwLock.Shared DT.View) (view : DT.View)
      (hpc : r.pc = .acquireWrite pc)
      (hlock : RwLock.Step maxThreadsPerReplica tid node.lock pc (.take view) lock .excGuard) :
      BufferedStep n tid log node buffers r .internal
        ({ log with
          data := log.data.insert n view
          tickets := NrLog.collect log.tickets n r.requestIds }.setThread n
          ⟨.appendLoadTail, r.requestIds, r.operations, r.responses⟩)
        { node with lock := lock } buffers (some { r with pc := .appendExecute })
  | put (k : Nat) (hpc : r.pc = .respond maxThreadsPerReplica k)
      (hbuffers : buffers = .taken DT) :
      BufferedStep n tid log node buffers r .internal log node (.cleared DT)
        (some { r with pc := .releaseCombiner })
  | other (label : Label DT) (log' : NrLog.State DT) (node' : Node DT)
      (round : Option (Round DT)) (hkeeps : ¬ MovesBuffers r.pc round)
      (hstep : CombineStep n tid log node r label log' node' round) :
      BufferedStep n tid log node buffers r label log' node' buffers round

/-- A step of one thread of one replica, which is named by the label. -/
inductive BufferedNext (x : BufferedState DT) : Actor × Label DT → BufferedState DT → Prop
  | client (n : NodeId) (tid : ThreadId) (phase : Phase DT) (label : Label DT)
      (log : NrLog.State DT) (node : Node DT) (t : Thread DT)
      (hthread : (x.1.nodes n).threads tid = ⟨phase, none⟩)
      (hstep : ClientStep n tid x.1.log (x.1.nodes n) phase label log node t) :
      BufferedNext x ((n, tid), label)
        (⟨log, Function.update x.1.nodes n (node.setThread tid t)⟩, x.2)
  | combine (n : NodeId) (tid : ThreadId) (phase : Phase DT) (r : Round DT) (label : Label DT)
      (log : NrLog.State DT) (node : Node DT) (buffers : Buffers DT) (r' : Option (Round DT))
      (hthread : (x.1.nodes n).threads tid = ⟨phase, some r⟩)
      (hstep : BufferedStep n tid x.1.log (x.1.nodes n) (x.2 n) r label log node buffers r') :
      BufferedNext x ((n, tid), label)
        (⟨log, Function.update x.1.nodes n (node.setThread tid ⟨phase, r'⟩)⟩,
          Function.update x.2 n buffers)

variable (DT) in
/-- The replicas with their buffers as a machine. -/
def bufferedMachine : Machine (BufferedState DT) (Actor × Label DT) where
  init := fun x ↦ (machine DT).init x.1 ∧ x.2 = fun _ ↦ .cleared DT
  step := BufferedNext

/-! ## Where the buffers are -/

/-- The round has the buffers. -/
def RoundPc.HasBuffers : RoundPc → Prop
  | .loadCombiner => False
  | .casCombiner => False
  | .releaseCombiner => False
  | _ => True

/-- The round has not given its operations to the log. -/
def RoundPc.Gathers : RoundPc → Prop
  | .loadCombiner => True
  | .casCombiner => True
  | .collect _ => True
  | .copyOp _ => True
  | .acquireWrite _ => True
  | _ => False

/-- A round has the buffers only while it has the combiner lock. -/
theorem RoundPc.HasBuffers.owns {pc : RoundPc} (h : pc.HasBuffers) : pc.Owns := by
  cases pc <;> first | exact h.elim | trivial

/-- The thread is in a round with the buffers. -/
def Thread.HasBuffers (t : Thread DT) : Prop :=
  ∃ r, t.round = some r ∧ r.pc.HasBuffers

/-- The buffers are cleared in their cells unless a round has them, and a round has no responses
before it executed. -/
structure BuffersInv (node : Node DT) (buffers : Buffers DT) : Prop where
  taken : ∀ tid, (node.threads tid).HasBuffers → buffers = .taken DT
  cleared : (∀ tid, ¬ (node.threads tid).HasBuffers) → buffers = .cleared DT
  responses : ∀ tid r, (node.threads tid).round = some r → r.pc.Gathers → r.responses = []

section Steps

variable {n : NodeId} {tid : ThreadId} {log log' : NrLog.State DT} {node node' : Node DT}
  {phase : Phase DT} {label : Label DT} {r : Round DT} {round : Option (Round DT)} {t : Thread DT}
  {buffers buffers' : Buffers DT}

private theorem Thread.hasBuffers_some :
    (⟨phase, some r⟩ : Thread DT).HasBuffers ↔ r.pc.HasBuffers := by
  simp [Thread.HasBuffers]

private theorem Thread.not_hasBuffers_none : ¬ (⟨phase, none⟩ : Thread DT).HasBuffers := by
  simp [Thread.HasBuffers]

/-- The buffers stay where they are when a thread gets no round with them and gives none up. -/
theorem BuffersInv.setThread (h : BuffersInv node buffers)
    (hhas : t.HasBuffers ↔ (node.threads tid).HasBuffers)
    (hresponses : ∀ r, t.round = some r → r.pc.Gathers → r.responses = [])
    (hthreads : node'.threads = node.threads) : BuffersInv (node'.setThread tid t) buffers := by
  have hall : ∀ j, ((node'.setThread tid t).threads j).HasBuffers ↔
      (node.threads j).HasBuffers := by
    intro j
    by_cases hj : j = tid
    · subst hj
      simpa only [Node.setThread, Function.update_self] using hhas
    · simp only [Node.setThread, Function.update_of_ne hj, hthreads]
  refine ⟨fun j hj ↦ h.taken j ((hall j).mp hj),
    fun hnone ↦ h.cleared fun j hj ↦ hnone j ((hall j).mpr hj), fun j r hr hgathers ↦ ?_⟩
  by_cases hj : j = tid
  · subst hj
    simp only [Node.setThread, Function.update_self] at hr
    exact hresponses r hr hgathers
  · simp only [Node.setThread, Function.update_of_ne hj, hthreads] at hr
    exact h.responses j r hr hgathers

/-- A thread enters `try_combine` without the buffers. -/
theorem ClientStep.not_hasBuffers (hstep : ClientStep n tid log node phase label log' node' t) :
    ¬ t.HasBuffers := by
  rintro ⟨r, hr, hhas⟩
  obtain rfl := hstep.round_eq hr
  exact hhas

/-- The round keeps or misses the buffers in every other access. -/
theorem CombineStep.hasBuffers_iff (hstep : CombineStep n tid log node r label log' node' round)
    (hkeeps : ¬ MovesBuffers r.pc round) :
    (⟨phase, round⟩ : Thread DT).HasBuffers ↔ r.pc.HasBuffers := by
  cases hstep with
  | casCombiner hpc hfree =>
    rw [hpc] at hkeeps
    exact absurd trivial hkeeps
  | takeData pc lock view hpc hlock =>
    rw [hpc] at hkeeps
    exact absurd trivial hkeeps
  | responded k hpc =>
    rw [hpc] at hkeeps
    exact absurd trivial hkeeps
  | combinerTaken hpc | casCombinerFail hpc | releaseCombiner hpc =>
    rw [hpc]
    exact iff_of_false Thread.not_hasBuffers_none id
  | appendExecute t l log' hpc ht hlog => exact Thread.hasBuffers_some
  | combinerFree hpc | collectRequest _ hpc | collectEmpty _ hpc | copyOp _ _ _ hpc
  | collected hpc | acquireWrite _ _ _ hpc | executed _ hpc | putData _ _ hpc | unlockExc _ hpc
  | respondNone _ _ hpc | respond _ _ _ _ _ _ hpc | storeResponse _ _ hpc =>
    rw [Thread.hasBuffers_some, hpc]
    exact Iff.rfl

/-- The round gets its responses from the log. -/
theorem CombineStep.responses_eq (hstep : CombineStep n tid log node r label log' node' round)
    (h : r.pc.Gathers → r.responses = []) {r' : Round DT} (hround : round = some r')
    (hgathers : r'.pc.Gathers) : r'.responses = [] := by
  have hgot : ∀ {pc : RoundPc}, r.pc = pc → pc.Gathers → r.responses = [] := by
    rintro pc rfl hpc
    exact h hpc
  cases hstep with
  | combinerTaken | casCombinerFail | releaseCombiner => cases hround
  | appendExecute t l log' hpc =>
    cases hround
    exact h hgathers
  | takeData | executed | putData | unlockExc | respondNone | respond | storeResponse
  | responded =>
    cases hround
    exact hgathers.elim
  | combinerFree hpc | casCombiner hpc | collectRequest _ hpc | collectEmpty _ hpc
  | copyOp _ _ _ hpc | collected hpc | acquireWrite _ _ _ hpc =>
    cases hround
    exact hgot hpc trivial

/-- While the combiner lock is free, the buffers are in their cells. -/
theorem NodeInv.cleared_of_free (hnode : NodeInv n log node) (h : BuffersInv node buffers)
    (hfree : node.combiner = 0) : buffers = .cleared DT := by
  refine h.cleared fun j hj ↦ ?_
  obtain ⟨r, hr, hhas⟩ := hj
  exact hnode.not_owns_of_free hfree j r hr hhas.owns

/-- A round that gets the combiner lock finds the buffers, as empty as its own. -/
theorem NodeInv.take_eq (hnode : NodeInv n log node) (h : BuffersInv node buffers)
    (hthread : node.threads tid = ⟨phase, some r⟩) (hpc : r.pc = .casCombiner) :
    ({ r with pc := .collect 0, operations := [], numOpsPerThread := [], responses := [] } :
      Round DT) = { r with pc := .collect 0 } := by
  have hr : (node.threads tid).round = some r := by rw [hthread]
  have hprogress := hnode.progress tid r hr
  simp only [Round.Progress, hpc] at hprogress
  have hresponses := h.responses tid r hr (by rw [hpc]; trivial)
  rw [hprogress.1, hprogress.2.2, hresponses]

/-- The buffer for the responses that a round lends to the log is empty. -/
theorem BuffersInv.lent_eq (h : BuffersInv node buffers)
    (hthread : node.threads tid = ⟨phase, some r⟩) {pc : RwLock.Pc}
    (hpc : r.pc = .acquireWrite pc) :
    (⟨.appendLoadTail, r.requestIds, r.operations, r.responses⟩ : NrLog.Thread DT) =
      ⟨.appendLoadTail, r.requestIds, r.operations, []⟩ := by
  rw [h.responses tid r (by rw [hthread]) (by rw [hpc]; trivial)]

/-- An access with the buffers is the access of the replica. -/
theorem BufferedStep.combineStep
    (hstep : BufferedStep n tid log node buffers r label log' node' buffers' round)
    (hnode : NodeInv n log node) (h : BuffersInv node buffers)
    (hthread : node.threads tid = ⟨phase, some r⟩) :
    CombineStep n tid log node r label log' node' round := by
  cases hstep with
  | take operations numOpsPerThread responses hpc hfree hbuffers =>
    cases hbuffers.symm.trans (hnode.cleared_of_free h hfree)
    rw [hnode.take_eq h hthread hpc]
    exact .casCombiner hpc hfree
  | append pc lock view hpc hlock =>
    rw [h.lent_eq hthread hpc]
    exact .takeData pc lock view hpc hlock
  | put k hpc => exact .responded k hpc
  | other _ _ _ _ _ hstep => exact hstep

/-- No access of the replica misses the buffers. -/
theorem CombineStep.exists_buffered
    (hstep : CombineStep n tid log node r label log' node' round)
    (hnode : NodeInv n log node) (h : BuffersInv node buffers)
    (hthread : node.threads tid = ⟨phase, some r⟩) :
    ∃ buffers', BufferedStep n tid log node buffers r label log' node' buffers' round := by
  have hr : (node.threads tid).round = some r := by rw [hthread]
  by_cases hmoves : MovesBuffers r.pc round
  · cases hstep with
    | casCombiner hpc hfree =>
      rw [← hnode.take_eq h hthread hpc]
      exact ⟨_, .take [] [] [] hpc hfree (hnode.cleared_of_free h hfree)⟩
    | takeData pc lock view hpc hlock =>
      rw [← h.lent_eq hthread hpc]
      exact ⟨_, .append pc lock view hpc hlock⟩
    | responded k hpc =>
      exact ⟨_, .put k hpc (h.taken tid ⟨r, hr, by rw [hpc]; trivial⟩)⟩
    | appendExecute t l log' hpc =>
      rw [hpc] at hmoves
      exact hmoves.elim
    | combinerFree hpc | combinerTaken hpc | casCombinerFail hpc | collectRequest _ hpc
    | collectEmpty _ hpc | copyOp _ _ _ hpc | collected hpc | acquireWrite _ _ _ hpc
    | executed _ hpc | putData _ _ hpc | unlockExc _ hpc | respondNone _ _ hpc
    | respond _ _ _ _ _ _ hpc | storeResponse _ _ hpc | releaseCombiner hpc =>
      rw [hpc] at hmoves
      exact hmoves.elim
  · exact ⟨buffers, .other _ _ _ _ hmoves hstep⟩

/-- The buffers are with the round or in their cells. -/
theorem BuffersInv.step (h : BuffersInv node buffers) (hnode : NodeInv n log node)
    (hthread : node.threads tid = ⟨phase, some r⟩)
    (hstep : BufferedStep n tid log node buffers r label log' node' buffers' round) :
    BuffersInv (node'.setThread tid ⟨phase, round⟩) buffers' := by
  have hr : (node.threads tid).round = some r := by rw [hthread]
  have hcombine := hstep.combineStep hnode h hthread
  have hresponses : ∀ r', round = some r' → r'.pc.Gathers → r'.responses = [] :=
    fun r' hround ↦ hcombine.responses_eq (h.responses tid r hr) hround
  have hothers : ∀ j, j ≠ tid →
      ((node'.setThread tid ⟨phase, round⟩).threads j) = node.threads j := by
    intro j hj
    simp only [Node.setThread, Function.update_of_ne hj, hcombine.threads_eq]
  have hall : ∀ j r', ((node'.setThread tid ⟨phase, round⟩).threads j).round = some r' →
      r'.pc.Gathers → r'.responses = [] := by
    intro j r' hr' hgathers
    by_cases hj : j = tid
    · subst hj
      simp only [Node.setThread, Function.update_self] at hr'
      exact hresponses r' hr' hgathers
    · rw [hothers j hj] at hr'
      exact h.responses j r' hr' hgathers
  cases hstep with
  | take operations numOpsPerThread responses hpc hfree hbuffers =>
    refine ⟨fun _ _ ↦ rfl, fun hnone ↦ absurd ?_ (hnone tid), hall⟩
    simp only [Node.setThread, Function.update_self]
    exact Thread.hasBuffers_some.mpr trivial
  | append pc lock view hpc hlock =>
    refine ⟨fun _ _ ↦ h.taken tid ⟨r, hr, by rw [hpc]; trivial⟩,
      fun hnone ↦ absurd ?_ (hnone tid), hall⟩
    simp only [Node.setThread, Function.update_self]
    exact Thread.hasBuffers_some.mpr trivial
  | put k hpc hbuffers =>
    refine ⟨fun j hj ↦ ?_, fun _ ↦ rfl, hall⟩
    by_cases hne : j = tid
    · subst hne
      simp only [Node.setThread, Function.update_self] at hj
      exact (Thread.hasBuffers_some.mp hj).elim
    · rw [hothers j hne] at hj
      obtain ⟨r', hr', hhas⟩ := hj
      exact absurd hhas.owns (hnode.others hr (by rw [hpc]; trivial) j r' hne hr')
  | other _ _ _ _ hkeeps hstep =>
    refine h.setThread ?_ hresponses hstep.threads_eq
    rw [hthread, Thread.hasBuffers_some]
    exact hstep.hasBuffers_iff hkeeps

end Steps

/-! ## The same steps -/

section Runs

variable {x y : BufferedState DT} {s : State DT} {label : Label DT} {actor : Actor}

/-- The buffers of every replica are where its rounds have them. -/
def BufferedInv (x : BufferedState DT) : Prop :=
  (machine DT).Reachable x.1 ∧ ∀ n, BuffersInv (x.1.nodes n) (x.2 n)

private theorem BufferedInv.next (h : BufferedInv x) (hstep : BufferedNext x (actor, label) y) :
    Next x.1 label y.1 := by
  cases hstep with
  | client n tid phase label log node t hthread hstep =>
    exact .client n tid phase label log node t hthread hstep
  | combine n tid phase r label log node buffers r' hthread hstep =>
    have hnode := (inv_of_reachable h.1).1.nodes n
    exact .combine n tid phase r label log node r' hthread
      (hstep.combineStep hnode (h.2 n) hthread)

/-- A step keeps the buffers where the rounds have them. -/
theorem BufferedInv.step (h : BufferedInv x) (hstep : BufferedNext x (actor, label) y) :
    BufferedInv y := by
  refine ⟨h.1.step (h.next hstep), fun m ↦ ?_⟩
  cases hstep with
  | client n tid phase label log node t hthread hstep =>
    by_cases hm : m = n
    · subst hm
      simp only [Function.update_self]
      refine (h.2 m).setThread ?_ (fun r hr _ ↦ ?_) hstep.threads_eq
      · rw [hthread]
        exact iff_of_false hstep.not_hasBuffers Thread.not_hasBuffers_none
      · rw [hstep.round_eq hr]
        rfl
    · simp only [Function.update_of_ne hm]
      exact h.2 m
  | combine n tid phase r label log node buffers r' hthread hstep =>
    by_cases hm : m = n
    · subst hm
      have hnode := (inv_of_reachable h.1).1.nodes m
      simp only [Function.update_self]
      exact (h.2 m).step hnode hthread hstep
    · simp only [Function.update_of_ne hm]
      exact h.2 m

/-- In every reachable state the buffers are where the rounds have them. -/
theorem bufferedInv_of_reachable (h : (bufferedMachine DT).Reachable x) : BufferedInv x := by
  refine h.invariant (I := BufferedInv) ?_ fun s l t hinv hstep ↦ hinv.step hstep
  rintro ⟨s, buffers⟩ ⟨hs, rfl⟩
  refine ⟨.of_init hs, fun n ↦ ?_⟩
  obtain ⟨numReplicas, _, rfl⟩ := hs
  refine ⟨fun tid hhas ↦ absurd hhas Thread.not_hasBuffers_none, fun _ ↦ rfl, ?_⟩
  simp [initialState, initialNode]

/-- The replicas with the buffers take the steps of the replicas. -/
theorem bufferedMachine_refines :
    Refines (bufferedMachine DT) (machine DT) Prod.fst fun _ l ↦ l.2 where
  init := fun _ h ↦ h.1
  step := fun _ _ _ hreach hstep ↦ (bufferedInv_of_reachable hreach).next hstep

/-- The buffers are there for every step of the replicas. -/
theorem exists_bufferedNext (h : (bufferedMachine DT).Reachable x) (hstep : Next x.1 label s) :
    ∃ actor buffers, (bufferedMachine DT).step x (actor, label) (s, buffers) := by
  have hinv := bufferedInv_of_reachable h
  cases hstep with
  | client n tid phase label log node t hthread hstep =>
    exact ⟨_, _, .client n tid phase label log node t hthread hstep⟩
  | combine n tid phase r label log node r' hthread hstep =>
    have hnode := (inv_of_reachable hinv.1).1.nodes n
    obtain ⟨buffers, hbuffered⟩ := hstep.exists_buffered hnode (hinv.2 n) hthread
    exact ⟨_, _, .combine n tid phase r label log node buffers r' hthread hbuffered⟩

/-- Every run of the replicas is one with the buffers. -/
theorem exists_buffered_of_reachable (h : (machine DT).Reachable s) :
    ∃ buffers, (bufferedMachine DT).Reachable (s, buffers) := by
  refine h.invariant (I := fun s ↦ ∃ buffers, (bufferedMachine DT).Reachable (s, buffers))
    (fun s hs ↦ ⟨_, .of_init ⟨hs, rfl⟩⟩) ?_
  rintro s label t ⟨buffers, hreach⟩ hstep
  obtain ⟨actor, buffers', hbuffered⟩ := exists_bufferedNext hreach hstep
  exact ⟨buffers', hreach.step hbuffered⟩

end Runs

end Replica

end NrKernel.NodeReplication
