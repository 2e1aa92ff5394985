import NrKernel.NodeReplication.NrLogSteps

/-!
# The executable log implements the unbounded log

The simulation from fresh logs on, and what it says about whole runs: `execute` dispatches at
an index what the append that reserved the index put there, and no counter reaches the index
the code refuses.
-/

namespace NrKernel.NodeReplication

open Lib

universe u

namespace NrLog

variable {DT : Dispatch.{u}} {c c' : State DT} {u : UnboundedLog.State DT}

/-- The buffer a fresh log stands for. -/
def initialBuffer (DT : Dispatch.{u}) (numReplicas : Nat) : CyclicBuffer.State DT where
  unboundedLogInstance := 0
  cellIds := List.range logSize
  bufferSize := logSize
  numReplicas := numReplicas
  head := 0
  tail := 0
  localVersions := fun n ↦ if n < numReplicas then some 0 else none
  contents := fun i ↦ if -(logSize : Int) ≤ i ∧ i < 0 then
    some ⟨⟨CyclicBuffer.logEntryIdx i logSize, some none⟩, none⟩ else none
  aliveBits := fun i ↦ if i < logSize then some false else none
  combiner := fun n ↦ if n < numReplicas then some .idle else none

private theorem initialBuffer_init {numReplicas : Nat} (hpos : 0 < numReplicas) :
    CyclicBuffer.Init (initialBuffer DT numReplicas) where
  replicas_pos := hpos
  size := rfl
  cells := by simp only [initialBuffer, List.length_range]
  head := rfl
  tail := rfl
  localVersions := fun _ ↦ rfl
  contents_dom := by
    intro i
    simp only [initialBuffer]
    split <;> simp_all
  contents := by
    intro i st hst
    simp only [initialBuffer] at hst
    split at hst
    · next hi =>
      cases hst
      have hlt : CyclicBuffer.logEntryIdx i logSize < logSize := slot_lt (by decide) i
      refine ⟨by simp, ?_, fun h0 ↦ absurd h0 (by omega)⟩
      simp [CyclicBuffer.State.cellId, initialBuffer, List.getD_eq_getElem?_getD, hlt]
    · cases hst
  aliveBits := by
    intro i
    simp only [initialBuffer]
    split
    · next hi =>
      have hzero : (i : Int) / (logSize : Int) = 0 :=
        Int.ediv_eq_zero_of_lt (by omega) (by omega)
      simp [CyclicBuffer.logEntryAliveValue, passBit, hzero, hi]
    · next hi => exact (if_neg hi).symm
  combiner := fun _ ↦ rfl

private theorem coupled_initialState (numReplicas : Nat) :
    Coupled (initialState DT numReplicas) (UnboundedLog.initialState DT numReplicas)
      (initialBuffer DT numReplicas) where
  shared :=
    { bufferSize := rfl
      numReplicas := rfl
      buffer_numReplicas := rfl
      head := rfl
      tail := rfl
      buffer_tail := rfl
      localVersions := rfl
      buffer_localVersions := rfl
      versionUpperBound := rfl
      replicas := rfl
      aliveBits := fun i hi ↦ if_pos hi
      contents := by
        intro i st hst
        simp only [initialBuffer] at hst
        split at hst
        · cases hst
          rfl
        · cases hst
      tokens := by
        intro i st hst
        simp only [initialBuffer] at hst
        rw [if_neg (by omega)] at hst
        cases hst
      readers := fun _ ↦ rfl
      tickets := fun _ ↦ rfl
      threads_dom := by simp [initialState]
      owned := by
        intro n t rid ht hrid
        simp only [initialState] at ht
        split at ht
        · cases ht
          cases hrid
        · cases ht
      nodup := by
        intro n t ht
        simp only [initialState] at ht
        split at ht
        · cases ht
          exact List.nodup_nil
        · cases ht
      operations_le := by
        intro n t ht
        simp only [initialState] at ht
        split at ht
        · cases ht
          exact Nat.zero_le _
        · cases ht }
  threads := by
    intro n t phase buffer ht hphase hbuffer
    simp only [initialState, UnboundedLog.initialState, initialBuffer] at ht hphase hbuffer
    split at ht
    · next hn =>
      rw [if_pos hn] at hphase hbuffer
      cases ht
      cases hphase
      cases hbuffer
      simp only [Thread.Coupled, Thread.idle]
      exact ⟨trivial, trivial⟩
    · cases ht

/-- The simulation: reachable states of both machines go with the state of the code. -/
def Implements (c : State DT) (u : UnboundedLog.State DT) : Prop :=
  (UnboundedLog.machine DT).Reachable u ∧
    ∃ b, (CyclicBuffer.machine DT).Reachable b ∧ Coupled c u b

/-- The transitions that answer a step show a client what the step shows. -/
def SameVisible (label : Label DT) (ms : List (AsyncLabel DT)) : Prop :=
  ms.filter AsyncLabel.visible = [label.async].filter AsyncLabel.visible

/-- The initial states implement each other. -/
theorem implements_initialState {numReplicas : Nat} (hpos : 0 < numReplicas) :
    Implements (initialState DT numReplicas) (UnboundedLog.initialState DT numReplicas) := by
  refine ⟨.of_init ⟨numReplicas, hpos, rfl⟩, initialBuffer DT numReplicas, ?_,
    coupled_initialState numReplicas⟩
  exact .of_init (initialBuffer_init hpos)

/-- Every step of the code is matched by steps of the unbounded log. -/
theorem forwardSim :
    ForwardSim (machine DT) (UnboundedLog.machine DT) SameVisible Implements where
  init := by
    rintro _ ⟨numReplicas, hpos, rfl⟩
    exact ⟨UnboundedLog.initialState DT numReplicas, ⟨numReplicas, hpos, rfl⟩,
      implements_initialState hpos⟩
  step := by
    rintro c label c' u ⟨hu, b, hb, hc⟩ hstep
    obtain ⟨ms, u', ls, b', hrun, hvisible, hrun', hc', _, _⟩ :=
      hc.next (UnboundedLog.inv_of_reachable hu) (CyclicBuffer.inv_of_reachable hb) hstep
    exact ⟨ms, u', hvisible, hrun, hu.run hrun, b', hb.run hrun', hc'⟩

/-- A reachable log implements some state of the unbounded log. -/
theorem exists_implements (h : (machine DT).Reachable c) : ∃ u, Implements c u := by
  obtain ⟨c₀, labels, hinit, hrun⟩ := h
  obtain ⟨_, _, u, _, _, _, himplements⟩ := forwardSim.run hinit hrun
  exact ⟨u, himplements⟩

/-- Every node of a reachable log has a combiner thread. -/
theorem exists_thread (h : (machine DT).Reachable c) {n : NodeId} (hn : n < c.numReplicas) :
    ∃ t, c.threads n = some t := by
  obtain ⟨u, _, b, _, hc⟩ := exists_implements h
  exact (hc.shared.threads_dom n).mpr hn

/-- A combiner that is done has one response for each of its requests. -/
theorem responses_of_finished (h : (machine DT).Reachable c) {n : NodeId} {t : Thread DT}
    (ht : c.threads n = some t) (hpc : t.pc = .finished) :
    t.requestIds.Nodup ∧ t.requestIds.length = t.responses.length := by
  obtain ⟨u, hu, b, hb, hc⟩ := exists_implements h
  obtain ⟨phase, buffer, _, _, hcoupled⟩ :=
    hc.exists_phases (UnboundedLog.inv_of_reachable hu) (CyclicBuffer.inv_of_reachable hb) ht
  simp only [Thread.Coupled, hpc] at hcoupled
  exact ⟨hc.shared.nodup n t ht, hcoupled.2.2.length_eq⟩

section History

variable (DT) in
/-- A batch of operations and the range of the log reserved for it. -/
structure Placement where
  nodeId : NodeId
  tail : Nat
  operations : List DT.WriteOperation

/-- The batch a step reserves a range for. -/
def Label.placement : Label DT → Option (Placement DT)
  | .reserve nodeId tail operations => some ⟨nodeId, tail, operations⟩
  | _ => none

/-- The index is in the batch's range. -/
def Placement.Covers (p : Placement DT) (i : Nat) : Prop :=
  p.tail ≤ i ∧ i < p.tail + p.operations.length

/-- The batch puts the operation at the index, in the name of the node. -/
def Placement.Puts (p : Placement DT) (i : Nat) (op : DT.WriteOperation) (nodeId : NodeId) :
    Prop :=
  p.tail ≤ i ∧ p.operations[i - p.tail]? = some op ∧ p.nodeId = nodeId

/-- Every dispatch of a run is of the operation and node that the one append that reserved
the index put there. -/
def DispatchesAsPlaced (labels : List (Label DT)) : Prop :=
  ∀ before n i entry after, labels = before ++ .dispatch n i entry :: after →
    ∃ p ∈ before.filterMap Label.placement, p.Puts i entry.op entry.nodeId ∧
      ∀ q ∈ labels.filterMap Label.placement, q.Covers i → q = p

/-- Reserved ranges follow one another up to the tail, and the log holds what was put. -/
structure Placed (labels : List (Label DT)) (c : State DT) (u : UnboundedLog.State DT) :
    Prop where
  ordered : (labels.filterMap Label.placement).Pairwise fun p q ↦
    p.tail + p.operations.length ≤ q.tail
  below : ∀ p ∈ labels.filterMap Label.placement, p.tail + p.operations.length ≤ c.tail
  logged : ∀ i entry, u.log i = some entry →
    ∃ p ∈ labels.filterMap Label.placement, p.Puts i entry.op entry.nodeId

/-- Only a reservation moves the tail, and it starts there. -/
theorem Next.tail_eq {label : Label DT} (h : Next c label c') :
    (label.placement = none ∧ c'.tail = c.tail) ∨
      ∃ p, label.placement = some p ∧ p.tail = c.tail ∧
        c'.tail = c.tail + p.operations.length := by
  cases h with
  | combiner nodeId t hthread hstep =>
    cases hstep with
    | reserve tail advance hpc htail =>
      subst htail
      exact .inr ⟨_, rfl, rfl, rfl⟩
    | _ => exact .inl ⟨rfl, rfl⟩
  | reader rid hstep => cases hstep <;> exact .inl ⟨rfl, rfl⟩
  | _ => exact .inl ⟨rfl, rfl⟩

/-- A step keeps the log as the labels placed it. -/
theorem Placed.next {labels : List (Label DT)} {label : Label DT}
    {u' : UnboundedLog.State DT} (h : Placed labels c u) (hstep : Next c label c')
    (hlog : LogExtends label u.log u'.log) : Placed (labels ++ [label]) c' u' := by
  rcases hstep.tail_eq with ⟨hnone, htail⟩ | ⟨p, hsome, hp, htail⟩
  · have heq : (labels ++ [label]).filterMap Label.placement =
        labels.filterMap Label.placement := by
      simp [hnone]
    refine ⟨heq ▸ h.ordered, fun q hq ↦ htail ▸ h.below q (heq ▸ hq), fun i entry hi ↦ ?_⟩
    rcases hlog i entry hi with hold | ⟨tail, operations, rfl, _⟩
    · exact heq ▸ h.logged i entry hold
    · cases hnone
  · have heq : (labels ++ [label]).filterMap Label.placement =
        labels.filterMap Label.placement ++ [p] := by
      simp [hsome]
    refine ⟨?_, fun q hq ↦ ?_, fun i entry hi ↦ ?_⟩
    · rw [heq, List.pairwise_append]
      refine ⟨h.ordered, List.pairwise_singleton _ _, fun q hq r hr ↦ ?_⟩
      rw [List.mem_singleton.mp hr, hp]
      exact h.below q hq
    · rw [heq, List.mem_append, List.mem_singleton] at hq
      rcases hq with hold | rfl
      · have := h.below q hold
        omega
      · omega
    · rw [heq]
      rcases hlog i entry hi with hold | ⟨tail, operations, rfl, hle, hop⟩
      · obtain ⟨q, hq, hputs⟩ := h.logged i entry hold
        exact ⟨q, List.mem_append_left _ hq, hputs⟩
      · cases hsome
        exact ⟨_, List.mem_append_right _ List.mem_cons_self, hle, hop, rfl⟩

/-- Batches that cover one index are the same batch. -/
theorem Placed.unique {labels : List (Label DT)} (h : Placed labels c u) {i : Nat}
    {p q : Placement DT} (hp : p ∈ labels.filterMap Label.placement)
    (hq : q ∈ labels.filterMap Label.placement) (hpi : p.Covers i) (hqi : q.Covers i) :
    q = p := by
  let apart (p q : Placement DT) : Prop :=
    p.tail + p.operations.length ≤ q.tail ∨ q.tail + q.operations.length ≤ p.tail
  have hsymm : Std.Symm apart := ⟨fun _ _ hab ↦ hab.symm⟩
  have hpair : (labels.filterMap Label.placement).Pairwise apart := h.ordered.imp .inl
  by_contra hne
  have hapart : apart q p := hpair.forall hq hp hne
  rcases hapart with hle | hle <;> have := hpi.1 <;> have := hpi.2 <;> have := hqi.1 <;>
    have := hqi.2 <;> omega

private theorem Placement.Puts.covers {p : Placement DT} {i : Nat} {op : DT.WriteOperation}
    {nodeId : NodeId} (h : p.Puts i op nodeId) : p.Covers i := by
  have hlt := (List.getElem?_eq_some_iff.mp h.2.1).1
  exact ⟨h.1, by have := h.1; omega⟩

-- What a run establishes: coupled machines, the log as placed, dispatches as placed.
private structure Explained (labels : List (Label DT)) (c : State DT) : Prop where
  coupled : ∃ u, Implements c u ∧ Placed labels c u
  dispatched : ∀ before n i entry after, labels = before ++ .dispatch n i entry :: after →
    ∃ p ∈ before.filterMap Label.placement, p.Puts i entry.op entry.nodeId

private theorem Explained.next {labels : List (Label DT)} {label : Label DT}
    (h : Explained labels c) (hstep : Next c label c') : Explained (labels ++ [label]) c' := by
  obtain ⟨u, ⟨hu, b, hb, hc⟩, hplaced⟩ := h.coupled
  obtain ⟨ms, u', ls, b', hrun, _, hrun', hc', hlog, hdispatch⟩ :=
    hc.next (UnboundedLog.inv_of_reachable hu) (CyclicBuffer.inv_of_reachable hb) hstep
  refine ⟨⟨u', ⟨hu.run hrun, b', hb.run hrun', hc'⟩, hplaced.next hstep hlog⟩, ?_⟩
  intro before n i entry after heq
  rcases snoc_eq_append_cons heq with ⟨rfl, rfl, _⟩ | ⟨after', _, hlabels⟩
  · exact hplaced.logged i _ (hdispatch n i entry rfl)
  · exact h.dispatched before n i entry after' hlabels

private theorem dispatchesAsPlaced_of_run {c₀ : State DT} {labels : List (Label DT)}
    (hinit : (machine DT).init c₀) (hrun : (machine DT).Run c₀ labels c) :
    DispatchesAsPlaced labels := by
  obtain ⟨numReplicas, hpos, rfl⟩ := hinit
  have hstart : Explained [] (initialState DT numReplicas) := by
    refine ⟨⟨_, implements_initialState hpos, .nil, nofun, nofun⟩, ?_⟩
    intro before n i entry after heq
    cases before <;> cases heq
  have hend := hrun.history (I := Explained) (fun _ _ _ _ h hs ↦ h.next hs) hstart
  rw [List.nil_append] at hend
  obtain ⟨⟨u', _, hplaced⟩, hdispatched⟩ := hend
  intro before n i entry after heq
  obtain ⟨p, hp, hputs⟩ := hdispatched before n i entry after heq
  refine ⟨p, hp, hputs, fun q hq hcovers ↦ hplaced.unique ?_ hq hputs.covers hcovers⟩
  rw [heq, List.filterMap_append]
  exact List.mem_append_left _ hp

end History

/-- The executable log implements the unbounded log: every access is answered by transitions
that show the same to clients, and what `execute` dispatches at an index is what the append
that reserved the index placed there. -/
theorem nrLog_implements_unboundedLog :
    ForwardSim (machine DT) (UnboundedLog.machine DT) SameVisible Implements ∧
      ∀ (c₀ c : State DT) (labels : List (Label DT)), (machine DT).init c₀ →
        (machine DT).Run c₀ labels c → DispatchesAsPlaced labels :=
  ⟨forwardSim, fun _ _ _ hinit hrun ↦ dispatchesAsPlaced_of_run hinit hrun⟩

/-- A batch of one request fits into an empty log. -/
theorem appendChecked_one : appendChecked 0 0 1 = .appendReserve 0 false := by
  simp [appendChecked, logSize, gcFromHead, maxPendingOps, maxThreadsPerReplica, maxIdx]

/-- One replica appends the only request there is and dispatches it at index 0. -/
theorem exists_dispatched :
    ∃ c : State counter, (machine counter).Run (initialState counter 1)
      [.start 7 (.write (5 : Nat)), .internal, .internal, .internal, .reserve 0 0 [(5 : Nat)],
        .internal, .internal, .internal, .internal, .internal, .dispatch 0 0 ⟨(5 : Nat), 0⟩] c ∧
      c.threads 0 = some ⟨.executeFetchMax .combine 1, [7], [(5 : Nat)],
        [(counter.dispatchMutSpec counter.initSpec (5 : Nat)).2]⟩ := by
  let t (pc : Pc) : Thread counter := ⟨pc, [7], [(5 : Nat)], []⟩
  refine Machine.Run.exists_cons (.startWrite 7 _ rfl rfl) ?_
  refine Machine.Run.exists_cons (.collect 0 _ [7] [(5 : Nat)] rfl rfl (by decide) (by decide)
    (.cons rfl .nil)) ?_
  refine Machine.Run.exists_cons (.combiner 0 (t _) rfl (.appendLoadTail rfl)) ?_
  refine Machine.Run.exists_cons (.combiner 0 (t _) rfl (.appendLoadHead 0 rfl)) ?_
  refine Machine.Run.exists_cons (.combiner 0 (t _)
    (congrArg (fun pc ↦ some (t pc)) appendChecked_one) (.reserve 0 false rfl rfl)) ?_
  refine Machine.Run.exists_cons (.combiner 0 (t (.appendWriteEntry 0 0 false)) rfl
    (.writeEntry 0 0 false _ rfl rfl)) ?_
  refine Machine.Run.exists_cons (.combiner 0 (t _) rfl (.storeAlive 0 0 false rfl)) ?_
  refine Machine.Run.exists_cons (.combiner 0 (t (.executeLoadLocal .combine)) rfl
    (.executeLoadLocal .combine 0 rfl rfl)) ?_
  refine Machine.Run.exists_cons (.combiner 0 (t _) rfl (.executeLoadTail .combine 0 rfl)) ?_
  refine Machine.Run.exists_cons (.combiner 0 (t (.executeLoadAlive .combine 0 1)) rfl
    (.executeLoadAlive .combine 0 1 rfl)) ?_
  refine Machine.Run.exists_cons (.combiner 0 (t (.executeDispatch .combine 0 1)) rfl
    (.dispatch .combine 0 1 _ _ rfl rfl rfl)) ?_
  exact ⟨_, .nil _, rfl⟩

/-- A run in which the entry of an update is dispatched, at the index it was reserved at. -/
theorem nrLog_implements_unboundedLog_dispatch :
    ∃ (labels : List (Label counter)) (c : State counter),
      (machine counter).Run (initialState counter 1) labels c ∧
      .dispatch 0 0 ⟨(5 : Nat), 0⟩ ∈ labels ∧ DispatchesAsPlaced labels := by
  obtain ⟨c, hrun, _⟩ := exists_dispatched
  exact ⟨_, c, hrun, by simp, nrLog_implements_unboundedLog.2 _ c _ ⟨1, by decide, rfl⟩ hrun⟩

section Counters

/-- The tail and every batch about to be reserved stay below the refused index. -/
structure BelowMaxIdx (c : State DT) : Prop where
  tail : c.tail < maxIdx
  reserve : ∀ n t tail advance, c.threads n = some t → t.pc = .appendReserve tail advance →
    tail + t.operations.length < maxIdx

/-- The next access is not a compare-and-swap. -/
def Pc.Quiet (pc : Pc) : Prop := ∀ tail advance, pc ≠ .appendReserve tail advance

/-- The write loop of `append` swaps no index. -/
theorem quiet_appendNext (nops tail idx : Nat) (advance : Bool) :
    (appendNext nops tail idx advance).Quiet := by
  rw [appendNext]
  split
  · simp [Pc.Quiet]
  · split <;> simp [Pc.Quiet]

/-- The scan of the versions swaps no index. -/
theorem quiet_advanceNext (numReplicas globalHead globalTail least idx : Nat) :
    (advanceNext numReplicas globalHead globalTail least idx).Quiet := by
  rw [advanceNext]
  split
  · simp [Pc.Quiet]
  · split <;> simp [Pc.Quiet]

/-- Storing the head leads to no swap of an index. -/
theorem quiet_advanceStored (globalTail least : Nat) :
    (advanceStored globalTail least).Quiet := by
  rw [advanceStored]
  split <;> simp [Pc.Quiet]

/-- Returning from `execute` leads to no swap of an index. -/
theorem quiet_resume (ret : Return) : ret.resume.Quiet := by
  cases ret <;> simp [Return.resume, Pc.Quiet]

/-- The loop of `execute` swaps no index. -/
theorem quiet_executeNext (ret : Return) (version globalTail : Nat) :
    (executeNext ret version globalTail).Quiet := by
  rw [executeNext]
  split <;> simp [Pc.Quiet]

/-- The test of the loaded tail leads to no swap of an index. -/
theorem quiet_executeChecked (ret : Return) (version globalTail : Nat) :
    (executeChecked ret version globalTail).Quiet := by
  rw [executeChecked]
  split
  · exact quiet_resume ret
  · exact quiet_executeNext ret version globalTail

private theorem BelowMaxIdx.setThread {n : NodeId} {t : Thread DT} (h : BelowMaxIdx c)
    (ht : ∀ tail advance, t.pc = .appendReserve tail advance →
      tail + t.operations.length < maxIdx) : BelowMaxIdx (c.setThread n t) := by
  refine ⟨h.tail, fun m s tail advance hm hs ↦ ?_⟩
  rcases (PMap.insert_eq_some _ _ _ _ _).mp hm with ⟨_, rfl⟩ | ⟨_, hold⟩
  · exact ht tail advance hs
  · exact h.reserve m s tail advance hold hs

private theorem BelowMaxIdx.goto {n : NodeId} {t : Thread DT} {pc : Pc} (h : BelowMaxIdx c)
    (hpc : pc.Quiet) : BelowMaxIdx (c.goto n t pc) :=
  h.setThread fun tail advance heq ↦ absurd heq (hpc tail advance)

private theorem BelowMaxIdx.combiner {n : NodeId} {t : Thread DT} {label : Label DT}
    (h : BelowMaxIdx c) (ht : c.threads n = some t) (hstep : CombinerStep n t c label c') :
    BelowMaxIdx c' := by
  cases hstep with
  | appendLoadTail hpc => exact h.goto (by simp [Pc.Quiet])
  | appendLoadHead tail hpc =>
    -- the only way to a compare-and-swap, past the test
    refine h.setThread fun tail' advance heq ↦ ?_
    change appendChecked _ _ _ = _ at heq
    rw [appendChecked] at heq
    split at heq
    · cases heq
    · split at heq
      · cases heq
      · next hlt =>
        cases heq
        exact Nat.lt_of_not_le hlt
  | reserve tail advance hpc htail =>
    have hbelow : BelowMaxIdx { c with tail := tail + t.operations.length } :=
      ⟨h.reserve n t tail advance ht hpc, h.reserve⟩
    exact hbelow.goto (quiet_appendNext _ _ _ _)
  | reserveFail tail advance hpc => exact h.goto (by simp [Pc.Quiet])
  | writeEntry tail idx advance op hpc hop => exact .goto ⟨h.tail, h.reserve⟩ (by simp [Pc.Quiet])
  | storeAlive tail idx advance hpc =>
    exact .goto ⟨h.tail, h.reserve⟩ (quiet_appendNext _ _ _ _)
  | advanceLoadHead hpc => exact h.goto (by simp [Pc.Quiet])
  | advanceLoadTail globalHead hpc => exact h.goto (by simp [Pc.Quiet])
  | advanceLoadFirst globalHead globalTail version hpc hlocal =>
    exact h.goto (quiet_advanceNext _ _ _ _ _)
  | advanceLoadNext globalHead globalTail least idx version hpc hlocal =>
    exact h.goto (quiet_advanceNext _ _ _ _ _)
  | storeHead globalTail least hpc =>
    exact .goto ⟨h.tail, h.reserve⟩ (quiet_advanceStored _ _)
  | executeLoadLocal ret version hpc hlocal => exact h.goto (by simp [Pc.Quiet])
  | executeLoadTail ret version hpc => exact h.goto (quiet_executeChecked _ _ _)
  | executeLoadAlive ret version globalTail hpc =>
    refine h.goto ?_
    split <;> simp [Pc.Quiet]
  | dispatch ret version globalTail entry view hpc hentry hdata =>
    exact .setThread ⟨h.tail, h.reserve⟩ fun tail advance heq ↦
      absurd heq (quiet_executeNext _ _ _ tail advance)
  | dispatchPanic ret version globalTail hpc hentry => exact h.goto (by simp [Pc.Quiet])
  | fetchMax ret globalTail hpc => exact .goto ⟨h.tail, h.reserve⟩ (by simp [Pc.Quiet])
  | storeLocal ret globalTail hpc => exact .goto ⟨h.tail, h.reserve⟩ (quiet_resume ret)

private theorem belowMaxIdx_of_reachable (h : (machine DT).Reachable c) : BelowMaxIdx c := by
  refine h.invariant (I := BelowMaxIdx) ?_ fun s label s' hs hstep ↦ ?_
  · rintro _ ⟨numReplicas, _, rfl⟩
    refine ⟨(by decide : 0 < maxIdx), fun n t tail advance ht hpc ↦ ?_⟩
    simp only [initialState] at ht
    split at ht
    · cases ht
      cases hpc
    · cases ht
  · cases hstep with
    | combiner nodeId t hthread hstep => exact hs.combiner hthread hstep
    | reader rid hstep => cases hstep <;> exact ⟨hs.tail, hs.reserve⟩
    | collect nodeId t requestIds operations hthread hpc hnodup hmax htickets =>
      exact .setThread ⟨hs.tail, hs.reserve⟩ (by simp)
    | callExecute nodeId t hthread hpc => exact hs.setThread (by simp)
    | distribute nodeId t hthread hpc => exact .setThread ⟨hs.tail, hs.reserve⟩ nofun
    | _ => exact ⟨hs.tail, hs.reserve⟩

/-- No counter of the log ever reaches the refused index, so none of the code's 64-bit sums
of a counter with a log size or a batch wraps (`constants.rs:54`). -/
theorem counters_lt_maxIdx (h : (machine DT).Reachable c) :
    c.head < maxIdx ∧ c.tail < maxIdx ∧ c.versionUpperBound < maxIdx ∧
      (∀ n v, c.localVersions n = some v → v < maxIdx) ∧
      maxIdx + logSize + maxRequests < 2 ^ 64 := by
  have htail := (belowMaxIdx_of_reachable h).tail
  obtain ⟨c₀, labels, hinit, hrun⟩ := h
  obtain ⟨_, _, u, _, _, _, hu, b, hb, hc⟩ := forwardSim.run hinit hrun
  have hui := UnboundedLog.inv_of_reachable hu
  have hbi := CyclicBuffer.inv_of_reachable hb
  have hhead := hbi.head_le_tail
  rw [hc.shared.head, hc.shared.buffer_tail] at hhead
  have hupper := hui.upperBound_le
  rw [hc.shared.versionUpperBound, hc.shared.tail] at hupper
  refine ⟨by omega, htail, by omega, fun n v hv ↦ ?_, by decide⟩
  have hversion := hbi.version_le n v (by rw [hc.shared.buffer_localVersions, hv])
  rw [hc.shared.buffer_tail] at hversion
  omega

end Counters

end NrLog

end NrKernel.NodeReplication
