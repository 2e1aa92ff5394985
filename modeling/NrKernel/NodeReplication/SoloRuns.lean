import NrKernel.NodeReplication.Replica

/-!
# Threads that run alone

What a combiner does while no other thread makes a step: with room in the log it appends its
batch, applies what its replica has not seen yet and ends with the responses to its own
operations. Two threads of a replica can give such a combiner their operations, and a third call
reads what the two updates made of the data.
-/

namespace NrKernel.NodeReplication

open Lib Lib.Linearizability

universe u

namespace NrLog

open CyclicBuffer (ConcreteLogEntry)

variable {DT : Dispatch.{u}}

variable (DT) in
/-- The steps of the combiner thread of one node. -/
def combiner (n : NodeId) : Machine (State DT) (Label DT) where
  init := (machine DT).init
  step c label c' := ∃ t, c.threads n = some t ∧ CombinerStep n t c label c'

/-- What entries make of the data, with the results of those of the node. -/
def applyEntries (n : NodeId) (view : DT.View) :
    List (ConcreteLogEntry DT) → DT.View × List DT.Response
  | [] => (view, [])
  | entry :: entries =>
    let res := DT.dispatchMutSpec view entry.op
    let rest := applyEntries n res.1 entries
    (rest.1, if entry.nodeId = n then res.2 :: rest.2 else rest.2)

/-- The entries a node appends for its operations. -/
def entriesOf (n : NodeId) (operations : List DT.WriteOperation) : List (ConcreteLogEntry DT) :=
  operations.map fun op ↦ ⟨op, n⟩

/-- The log holds the entries, and has not used a slot twice yet. -/
structure Holds (c : State DT) (entries : List (ConcreteLogEntry DT)) : Prop where
  tail : c.tail = entries.length
  slots : ∀ i entry, entries[i]? = some entry → c.slog i = ⟨some entry, true⟩

section Solo

variable {c : State DT} {n : NodeId} {t : Thread DT} {entries : List (ConcreteLogEntry DT)}

/-- Steps of one combiner are steps of the log. -/
theorem run_of_combiner {c' : State DT} {labels : List (Label DT)}
    (h : (combiner DT n).Run c labels c') : (machine DT).Run c labels c' := by
  induction h with
  | nil c => exact .nil c
  | cons hstep _ ih =>
    obtain ⟨t, ht, hcombiner⟩ := hstep
    exact .cons (.combiner n t ht hcombiner) ih

private theorem single {label : Label DT} {c' : State DT}
    (hstep : CombinerStep n t (c.setThread n t) label c') :
    (combiner DT n).Run (c.setThread n t) [label] c' :=
  .single ⟨t, PMap.insert_self _ _ _, hstep⟩

private theorem index_of_lt {i : Nat} (h : i < logSize) : index i = i := Nat.mod_eq_of_lt h

private theorem isAliveValue_of_lt {i : Nat} (h : i < logSize) : isAliveValue i = true := by
  rw [isAliveValue, Nat.div_eq_of_lt h]
  rfl

private theorem run_writeEntry (tail : Nat) {idx : Nat} {op : DT.WriteOperation}
    (hop : t.operations[idx]? = some op) (hlt : tail + idx < logSize)
    (slog : Nat → BufferEntry DT) :
    (combiner DT n).Run
      ({ c with slog := slog }.setThread n { t with pc := .appendWriteEntry tail idx false })
      [.internal, .internal]
      ({ c with slog := Function.update slog (tail + idx) ⟨some ⟨op, n⟩, true⟩ }.setThread n
        { t with pc := appendNext t.operations.length tail (idx + 1) false }) := by
  have hwrite := single (c := { c with slog := slog }) (n := n)
    (.writeEntry (t := { t with pc := .appendWriteEntry tail idx false }) tail idx false op rfl hop)
  have halive := single
    (c := { c with
      slog := Function.update slog (tail + idx)
        { slog (tail + idx) with logEntry := some ⟨op, n⟩ } }) (n := n)
    (.storeAlive (t := { t with pc := .appendStoreAlive tail idx false }) tail idx false rfl)
  simp only [State.goto, State.setThread, PMap.insert_insert, index_of_lt hlt,
    isAliveValue_of_lt hlt, Function.update_idem, Function.update_self] at hwrite halive ⊢
  exact hwrite.append halive

private theorem exists_run_write (tail : Nat) (hroom : tail + t.operations.length ≤ logSize)
    (k : Nat) {idx : Nat} (hk : idx + k = t.operations.length) (slog : Nat → BufferEntry DT) :
    ∃ labels slog', (combiner DT n).Run
      ({ c with slog := slog }.setThread n
        { t with pc := appendNext t.operations.length tail idx false }) labels
      ({ c with slog := slog' }.setThread n { t with pc := .executeLoadLocal .combine }) ∧
      (∀ i, i < tail + idx → slog' i = slog i) ∧
      ∀ j op, idx ≤ j → t.operations[j]? = some op → slog' (tail + j) = ⟨some ⟨op, n⟩, true⟩ := by
  induction k generalizing idx slog with
  | zero =>
    have hend : appendNext t.operations.length tail idx false = .executeLoadLocal .combine := by
      rw [appendNext, if_neg (by omega)]
      rfl
    rw [hend]
    refine ⟨[], slog, .nil _, fun _ _ ↦ rfl, fun j op hj hop ↦ ?_⟩
    rw [List.getElem?_eq_none (by omega)] at hop
    cases hop
  | succ k ih =>
    have hlt : idx < t.operations.length := by omega
    have hnext : appendNext t.operations.length tail idx false =
        .appendWriteEntry tail idx false := by
      rw [appendNext, if_pos hlt]
    have hwrite := run_writeEntry (c := c) (n := n) tail (List.getElem?_eq_getElem hlt)
      (by omega) slog
    obtain ⟨labels, slog', hrun, hbelow, habove⟩ :=
      ih (show idx + 1 + k = t.operations.length by omega) _
    rw [hnext]
    refine ⟨_, slog', hwrite.append hrun, fun i hi ↦ ?_, fun j op hj hop ↦ ?_⟩
    · rw [hbelow i (by omega), Function.update_of_ne (Nat.ne_of_lt hi)]
    · rcases Nat.eq_or_lt_of_le hj with rfl | hj
      · rw [hbelow _ (by omega), Function.update_self]
        rw [List.getElem?_eq_getElem hlt] at hop
        rw [Option.some.inj hop]
      · exact habove j op hj hop

private theorem exists_run_applyEntry {version globalTail : Nat} {entry : ConcreteLogEntry DT}
    (hentry : c.slog version = ⟨some entry, true⟩) (hlt : version < globalTail)
    (hroom : globalTail ≤ logSize) (view : DT.View) (responses : List DT.Response) :
    ∃ labels, (combiner DT n).Run
      ({ c with data := c.data.insert n view }.setThread n
        { t with pc := executeNext .combine version globalTail, responses := responses }) labels
      ({ c with data := c.data.insert n (DT.dispatchMutSpec view entry.op).1 }.setThread n
        { t with
          pc := executeNext .combine (version + 1) globalTail
          responses := pushResponse responses n entry (DT.dispatchMutSpec view entry.op).2 }) := by
  have hindex : index version = version := index_of_lt (by omega)
  have hlogged : c.slog (index version) = ⟨some entry, true⟩ := by rw [hindex, hentry]
  have halive : (c.slog (index version)).alive = isAliveValue version := by
    rw [hlogged, isAliveValue_of_lt (by omega)]
  have hload := single (c := { c with data := c.data.insert n view }) (n := n)
    (.executeLoadAlive
      (t := { t with
        pc := .executeLoadAlive .combine version globalTail
        responses := responses }) .combine version globalTail rfl)
  have hdispatch := single (c := { c with data := c.data.insert n view }) (n := n)
    (.dispatch
      (t := { t with
        pc := .executeDispatch .combine version globalTail
        responses := responses }) .combine version globalTail entry view rfl
      (congrArg BufferEntry.logEntry hlogged) (PMap.insert_self _ _ _))
  rw [executeNext, if_pos hlt]
  simp only [State.goto, State.setThread, PMap.insert_insert, halive, ↓reduceIte]
    at hload hdispatch ⊢
  exact ⟨_, hload.append hdispatch⟩

private theorem exists_run_applyEntries {globalTail : Nat} (hroom : globalTail ≤ logSize)
    (entries : List (ConcreteLogEntry DT)) {version : Nat}
    (hend : version + entries.length = globalTail)
    (hentries : ∀ j entry, entries[j]? = some entry → c.slog (version + j) = ⟨some entry, true⟩)
    (view : DT.View) (responses : List DT.Response) :
    ∃ labels, (combiner DT n).Run
      ({ c with data := c.data.insert n view }.setThread n
        { t with pc := executeNext .combine version globalTail, responses := responses }) labels
      ({ c with data := c.data.insert n (applyEntries n view entries).1 }.setThread n
        { t with
          pc := .executeFetchMax .combine globalTail
          responses := responses ++ (applyEntries n view entries).2 }) := by
  induction entries generalizing version view responses with
  | nil =>
    have hlast : executeNext .combine version globalTail =
        .executeFetchMax .combine globalTail := by
      rw [executeNext, if_neg (by simpa using hend.ge)]
    rw [hlast, applyEntries, List.append_nil]
    exact ⟨[], .nil _⟩
  | cons entry entries ih =>
    rw [List.length_cons] at hend
    obtain ⟨labels, hrun⟩ := exists_run_applyEntry (c := c) (n := n) (t := t)
      (hentries 0 entry rfl) (by omega) hroom view responses
    obtain ⟨labels', hrun'⟩ := ih (show version + 1 + entries.length = globalTail by omega)
      (fun j e hj ↦ by rw [Nat.add_assoc, Nat.add_comm 1 j]; exact hentries (j + 1) e hj)
      (DT.dispatchMutSpec view entry.op).1
      (pushResponse responses n entry (DT.dispatchMutSpec view entry.op).2)
    have hresponses : pushResponse responses n entry (DT.dispatchMutSpec view entry.op).2 ++
        (applyEntries n (DT.dispatchMutSpec view entry.op).1 entries).2 =
        responses ++ (applyEntries n view (entry :: entries)).2 := by
      rw [pushResponse, applyEntries]
      split
      · rw [List.append_assoc, List.singleton_append]
      · rfl
    rw [hresponses] at hrun'
    exact ⟨_, hrun.append hrun'⟩

private theorem exists_run_append {entries : List (ConcreteLogEntry DT)} (hlog : Holds c entries)
    (hpc : t.pc = .appendLoadTail) (hne : t.operations ≠ [])
    (hroom : entries.length + t.operations.length ≤ logSize - gcFromHead) :
    ∃ labels slog, (combiner DT n).Run (c.setThread n t) labels
      ({ c with slog := slog, tail := entries.length + t.operations.length }.setThread n
        { t with pc := .executeLoadLocal .combine }) ∧
      ∀ i entry, (entries ++ entriesOf n t.operations)[i]? = some entry →
        slog i = ⟨some entry, true⟩ := by
  -- the operations fit into the log and no collection is due
  have hchecked : appendChecked entries.length c.head t.operations.length =
      .appendReserve entries.length false := by
    rw [appendChecked, if_neg (by omega), if_neg (by simp [logSize, maxIdx] at *; omega),
      decide_eq_false (by omega)]
  have hsome : 0 < t.operations.length := List.length_pos_iff.mpr hne
  have htail := single (c := c) (n := n) (.appendLoadTail hpc)
  have hhead := single (c := c) (n := n)
    (.appendLoadHead (t := { t with pc := .appendLoadHead entries.length }) entries.length rfl)
  have hreserve := single (c := c) (n := n)
    (.reserve (t := { t with pc := .appendReserve entries.length false }) entries.length false rfl
      hlog.tail)
  obtain ⟨labels, slog, hwrite, hbelow, habove⟩ := exists_run_write
    (c := { c with tail := entries.length + t.operations.length }) (n := n) (t := t)
    entries.length (by omega) t.operations.length (Nat.zero_add _) c.slog
  simp only [State.goto, State.setThread, PMap.insert_insert, hchecked, hlog.tail]
    at htail hhead hreserve hwrite ⊢
  refine ⟨_, slog, ((htail.append hhead).append hreserve).append hwrite, fun i entry hi ↦ ?_⟩
  rcases Nat.lt_or_ge i entries.length with hlt | hge
  · rw [List.getElem?_append_left hlt] at hi
    rw [hbelow i hlt, hlog.slots i entry hi]
  · rw [List.getElem?_append_right hge, entriesOf, List.getElem?_map, Option.map_eq_some_iff] at hi
    obtain ⟨op, hop, rfl⟩ := hi
    have hslot := habove _ op (Nat.zero_le _) hop
    rwa [Nat.add_sub_cancel' hge] at hslot

private theorem exists_run_execute {entries : List (ConcreteLogEntry DT)} {version : Nat}
    {view : DT.View} (hlog : Holds c entries) (hroom : entries.length ≤ logSize)
    (hversion : c.localVersions n = some version) (hlt : version < entries.length)
    (hdata : c.data n = some view) (hpc : t.pc = .executeLoadLocal .combine) :
    ∃ labels, (combiner DT n).Run (c.setThread n t) labels
      ({ c with
        versionUpperBound := max c.versionUpperBound entries.length
        localVersions := c.localVersions.insert n entries.length
        data := c.data.insert n (applyEntries n view (entries.drop version)).1 }.setThread n
        { t with
          pc := .finished
          responses := t.responses ++ (applyEntries n view (entries.drop version)).2 }) := by
  have hchecked : executeChecked .combine version entries.length =
      executeNext .combine version entries.length := by
    rw [executeChecked, if_neg (Nat.ne_of_lt hlt)]
  have hlocal := single (c := c) (n := n) (.executeLoadLocal .combine version hpc hversion)
  have htail := single (c := c) (n := n)
    (.executeLoadTail (t := { t with pc := .executeLoadTail .combine version }) .combine version
      rfl)
  obtain ⟨labels, happly⟩ := exists_run_applyEntries (c := c) (n := n) (t := t) hroom
    (entries.drop version)
    (show version + (entries.drop version).length = entries.length by
      rw [List.length_drop]; omega)
    (fun j entry hj ↦ hlog.slots _ _ (by rwa [List.getElem?_drop] at hj)) view t.responses
  have hbound := single (n := n)
    (c := { c with data := c.data.insert n (applyEntries n view (entries.drop version)).1 })
    (.fetchMax
      (t := { t with
        pc := .executeFetchMax .combine entries.length
        responses := t.responses ++ (applyEntries n view (entries.drop version)).2 })
      .combine entries.length rfl)
  have hpublish := single
    (c := { c with
      versionUpperBound := max c.versionUpperBound entries.length
      data := c.data.insert n (applyEntries n view (entries.drop version)).1 }) (n := n)
    (.storeLocal
      (t := { t with
        pc := .executeStoreLocal .combine entries.length
        responses := t.responses ++ (applyEntries n view (entries.drop version)).2 })
      .combine entries.length rfl)
  rw [PMap.insert_of_eq_some hdata] at happly
  simp only [State.goto, State.setThread, PMap.insert_insert, hlog.tail, hchecked, Return.resume]
    at hlocal htail happly hbound hpublish ⊢
  exact ⟨_, (((hlocal.append htail).append happly).append hbound).append hpublish⟩

/-- A combiner that runs alone, with room in the log and something to append, appends its batch,
applies all entries its replica has not seen, and keeps the results of its own. -/
theorem exists_run_append_execute (entries : List (ConcreteLogEntry DT)) {version : Nat}
    {view : DT.View} (hlog : Holds c entries) (ht : c.threads n = some t)
    (hpc : t.pc = .appendLoadTail) (hne : t.operations ≠ [])
    (hroom : entries.length + t.operations.length ≤ logSize - gcFromHead)
    (hversion : c.localVersions n = some version) (hle : version ≤ entries.length)
    (hdata : c.data n = some view) :
    ∃ labels c', (combiner DT n).Run c labels c' ∧ Holds c' (entries ++ entriesOf n t.operations) ∧
      c' = { c with
        slog := c'.slog
        tail := entries.length + t.operations.length
        versionUpperBound := max c.versionUpperBound (entries.length + t.operations.length)
        localVersions := c.localVersions.insert n (entries.length + t.operations.length)
        data := c.data.insert n (applyEntries n view
          ((entries ++ entriesOf n t.operations).drop version)).1 }.setThread n
        { t with
          pc := .finished
          responses := t.responses ++ (applyEntries n view
            ((entries ++ entriesOf n t.operations).drop version)).2 } := by
  have hlength : (entries ++ entriesOf n t.operations).length =
      entries.length + t.operations.length := by
    rw [List.length_append, entriesOf, List.length_map]
  have hsome : 0 < t.operations.length := List.length_pos_iff.mpr hne
  obtain ⟨labels, slog, happend, hslots⟩ := exists_run_append (n := n) hlog hpc hne hroom
  have hheld : Holds { c with slog := slog, tail := entries.length + t.operations.length }
      (entries ++ entriesOf n t.operations) := ⟨hlength.symm, hslots⟩
  obtain ⟨labels', hexecute⟩ := exists_run_execute (n := n) hheld (by omega) hversion (by omega)
    hdata (t := { t with pc := .executeLoadLocal .combine }) rfl
  rw [State.setThread, PMap.insert_of_eq_some ht] at happend
  rw [hlength] at hexecute
  exact ⟨_, _, happend.append hexecute, ⟨hheld.tail, hslots⟩, rfl⟩

end Solo

end NrLog

namespace Replica

variable {DT : Dispatch.{u}}

/-- A run from a state shows the calls and returns and gets to a log and to a first replica. -/
def Gets (s₀ : State DT)
    (shown : List (Event ReqId (InputOperation DT) (OutputOperation DT))) (log : NrLog.State DT)
    (node : Node DT) : Prop :=
  ∃ labels s, (machine DT).Run s₀ labels s ∧ history labels = shown ∧ s.log = log ∧
    s.nodes 0 = node

section Steps

variable {s₀ : State DT} {shown : List (Event ReqId (InputOperation DT) (OutputOperation DT))}
  {log log' : NrLog.State DT} {node node' : Node DT} {tid : ThreadId} {phase : Phase DT}
  {t : Thread DT} {r : Round DT} {round : Option (Round DT)} {label : Label DT}

/-- Rounds show no calls or returns. -/
theorem CombineStep.event_eq_none {n : NodeId}
    (h : CombineStep n tid log node r label log' node' round) : label.event = none := by
  cases h with
  | appendExecute t label log' => cases label <;> rfl
  | _ => rfl

variable (DT) in
/-- Nothing has run yet. -/
theorem Gets.initial (numReplicas : Nat) : Gets (initialState DT numReplicas) []
    (NrLog.initialState DT numReplicas) (initialNode DT) :=
  ⟨[], _, .nil _, rfl, rfl, rfl⟩

/-- A thread of the first replica makes an access outside `try_combine`. -/
theorem Gets.client (tid : ThreadId) (h : Gets s₀ shown log node)
    (hthread : node.threads tid = ⟨phase, none⟩)
    (hstep : ClientStep 0 tid log node phase label log' node' t) :
    Gets s₀ (shown ++ label.event.toList) log' (node'.setThread tid t) := by
  obtain ⟨labels, s, hrun, rfl, rfl, rfl⟩ := h
  refine ⟨_, _, hrun.append (.single (.client 0 tid phase label log' node' t hthread hstep)),
    history_snoc labels label, rfl, ?_⟩
  simp only [Function.update_self]

/-- A thread of the first replica makes an access inside `try_combine`. -/
theorem Gets.combine (tid : ThreadId) (h : Gets s₀ shown log node)
    (hthread : node.threads tid = ⟨phase, some r⟩)
    (hstep : CombineStep 0 tid log node r label log' node' round) :
    Gets s₀ shown log' (node'.setThread tid ⟨phase, round⟩) := by
  obtain ⟨labels, s, hrun, rfl, rfl, rfl⟩ := h
  refine ⟨_, _, hrun.append (.single (.combine 0 tid phase r label log' node' round hthread hstep)),
    ?_, rfl, ?_⟩
  · rw [history_snoc, hstep.event_eq_none, Option.toList_none, List.append_nil]
  · simp only [Function.update_self]

private theorem setThread_setThread (t t' : Thread DT) :
    (node.setThread tid t).setThread tid t' = node.setThread tid t' := by
  simp only [Node.setThread, Function.update_idem]

private theorem Gets.next (h : Gets s₀ shown log (node.setThread tid ⟨phase, some r⟩))
    (hstep : CombineStep 0 tid log (node.setThread tid ⟨phase, some r⟩) r label log'
      (node'.setThread tid t) round) :
    Gets s₀ shown log' (node'.setThread tid ⟨phase, round⟩) := by
  have hnext := h.combine tid (Function.update_self ..) hstep
  rwa [setThread_setThread] at hnext

private theorem Gets.nextClient (node' : Node DT) {t' : Thread DT}
    (h : Gets s₀ shown log (node.setThread tid ⟨phase, none⟩))
    (hstep : ClientStep 0 tid log (node.setThread tid ⟨phase, none⟩) phase label log'
      (node'.setThread tid t) t') :
    Gets s₀ (shown ++ label.event.toList) log' (node'.setThread tid t') := by
  have hnext := h.client tid (Function.update_self ..) hstep
  rwa [setThread_setThread] at hnext

/-- The first scan passes the slots from one on, which have no operation. -/
theorem Gets.collectEmpty (k : Nat) {i : Nat} {ops : List DT.WriteOperation} {numOps : List Nat}
    {ids : List ReqId} {rets : List DT.Response} (hk : i + k ≤ maxThreadsPerReplica)
    (hempty : ∀ j, (node.contexts (j + i)).atomic = 0)
    (h : Gets s₀ shown log
      (node.setThread tid ⟨phase, some ⟨.collect i, ops, numOps, ids, rets⟩⟩)) :
    Gets s₀ shown log (node.setThread tid
      ⟨phase, some ⟨.collect (i + k), ops, numOps ++ List.replicate k 0, ids, rets⟩⟩) := by
  induction k generalizing i numOps with
  | zero => simpa using h
  | succ k ih =>
    have hzero : ((node.setThread tid
        ⟨phase, some ⟨.collect i, ops, numOps, ids, rets⟩⟩).contexts i).atomic = 0 := by
      have hfirst := hempty 0
      rwa [Nat.zero_add] at hfirst
    have hstep := h.next (.collectEmpty i rfl (by omega) (by rw [hzero]; decide))
    rw [hzero] at hstep
    have hlater : ∀ j, (node.contexts (j + (i + 1))).atomic = 0 := by
      intro j
      rw [← Nat.add_assoc, Nat.add_right_comm]
      exact hempty (j + 1)
    have hrest := ih (by omega) hlater hstep
    rwa [List.append_assoc, ← List.singleton_append, Nat.add_right_comm i 1 k] at hrest

/-- A combiner that nobody reads next to passes the counts. -/
theorem Gets.checkCounts (k : Nat) {idx : Nat} {ops : List DT.WriteOperation} {numOps : List Nat}
    {ids : List ReqId} {rets : List DT.Response} (hk : idx + k ≤ maxThreadsPerReplica)
    (hcounts : ∀ j, node.lock.refCounts j = 0)
    (h : Gets s₀ shown log (node.setThread tid
      ⟨phase, some ⟨.acquireWrite (.excPending idx), ops, numOps, ids, rets⟩⟩)) :
    Gets s₀ shown log (node.setThread tid
      ⟨phase, some ⟨.acquireWrite (.excPending (idx + k)), ops, numOps, ids, rets⟩⟩) := by
  induction k generalizing idx with
  | zero => exact h
  | succ k ih =>
    have hstep : Gets s₀ shown log (node.setThread tid
        ⟨phase, some ⟨.acquireWrite (.excPending (if node.lock.refCounts idx = 0 then idx + 1
          else idx)), ops, numOps, ids, rets⟩⟩) :=
      h.next (.acquireWrite _ node.lock _ rfl (.checkCount idx (by omega)))
    rw [if_pos (hcounts idx)] at hstep
    have hrest := ih (by omega) hstep
    rwa [Nat.add_right_comm idx 1 k] at hrest

/-- The last scan passes the slots that gave no operation. -/
theorem Gets.respondNone (k : Nat) {i j : Nat} {ops : List DT.WriteOperation} {numOps : List Nat}
    {ids : List ReqId} {rets : List DT.Response}
    (hnone : ∀ i', i ≤ i' → i' < i + k → numOps[i']? = some 0)
    (h : Gets s₀ shown log
      (node.setThread tid ⟨phase, some ⟨.respond i j, ops, numOps, ids, rets⟩⟩)) :
    Gets s₀ shown log
      (node.setThread tid ⟨phase, some ⟨.respond (i + k) j, ops, numOps, ids, rets⟩⟩) := by
  induction k generalizing i with
  | zero => exact h
  | succ k ih =>
    have hstep := h.next (.respondNone i j rfl (hnone i (Nat.le_refl i) (by omega)))
    have hrest := ih (fun i' hle hlt ↦ hnone i' (by omega) (by omega)) hstep
    rwa [Nat.add_right_comm i 1 k] at hrest

/-- The combiner of the first replica makes accesses of the log. -/
theorem Gets.appendExecute (tid : ThreadId) {labels : List (NrLog.Label DT)}
    (h : Gets s₀ shown log node) (hthread : node.threads tid = ⟨phase, some r⟩)
    (hpc : r.pc = .appendExecute) (hrun : (NrLog.combiner DT 0).Run log labels log') :
    Gets s₀ shown log' node := by
  have hsame : node.setThread tid ⟨phase, some r⟩ = node := by
    rw [Node.setThread, ← hthread, Function.update_eq_self]
  induction hrun with
  | nil log => exact h
  | cons hstep _ ih =>
    obtain ⟨t, ht, hcombiner⟩ := hstep
    have hnext := h.combine tid hthread (.appendExecute t _ _ hpc ht hcombiner)
    rw [hsame] at hnext
    exact ih hnext

/-- A thread gets the shared guard of its replica when nobody is about to write and the replica
has published all that readers wait for. -/
theorem Gets.acquireRead (tid : ThreadId) (rid : ReqId) (op : DT.ReadOperation) {version : Nat}
    (h : Gets s₀ shown log node) (hthread : node.threads tid = ⟨.idle, none⟩)
    (hreplicas : 0 < log.numReplicas) (htid : tid < maxThreadsPerReplica)
    (hreaders : log.readers rid = none) (htickets : log.tickets rid = none)
    (hlocal : log.localVersions 0 = some version) (hsynced : version ≥ log.versionUpperBound)
    (hcount : node.lock.refCounts tid = 0) (hfree : node.lock.excLocked = false) :
    Gets s₀ (shown ++ [.call rid (.read op 0)])
      { log with readers := log.readers.insert rid (.synced op 0 log.versionUpperBound) }
      ({ node with lock := node.lock.setCount tid 1 }.setThread tid
        ⟨.acquireRead rid op .sharedGuard, none⟩) := by
  have hcalled := h.client tid hthread (.startRead rid op hreplicas htid hreaders htickets)
  have hversion := hcalled.nextClient node (.getVersionUpperBound rid op)
  have hready := hversion.nextClient node (.synced rid op _ version hlocal hsynced)
  have hcounts : RwLock.Step maxThreadsPerReplica tid node.lock .sharedLoad .internal node.lock
      (.sharedAdd 0) := by
    have hstep : RwLock.Step maxThreadsPerReplica tid node.lock _ _ _ _ := .loadCount
    rwa [hcount, if_neg (by decide)] at hstep
  have hloaded := hready.nextClient node
    (.acquireRead rid op .sharedLoad node.lock _ (by simp) hcounts)
  have hcounted := hloaded.nextClient { node with lock := node.lock.setCount tid 1 }
    (.acquireRead rid op (.sharedAdd 0) _ _ (by simp) (.addCount 0 hcount))
  have hchecked : RwLock.Step maxThreadsPerReplica tid (node.lock.setCount tid 1) .sharedPending
      .internal (node.lock.setCount tid 1) .sharedGuard := by
    have hstep : RwLock.Step maxThreadsPerReplica tid (node.lock.setCount tid 1) _ _ _ _ :=
      .checkExc
    rwa [if_neg (by simp [RwLock.Shared.setCount, hfree])] at hstep
  have hguard := hcounted.nextClient { node with lock := node.lock.setCount tid 1 }
    (.acquireRead rid op .sharedPending _ _ (by simp) hchecked)
  simp only [Label.event, Option.toList_some, Option.toList_none, List.append_nil,
    PMap.insert_insert] at hguard
  exact hguard

/-- Such a thread reads the data and leaves everything as it was. -/
theorem Gets.read (tid : ThreadId) (rid : ReqId) (op : DT.ReadOperation) {version : Nat}
    {view : DT.View} (h : Gets s₀ shown log node) (hthread : node.threads tid = ⟨.idle, none⟩)
    (hreplicas : 0 < log.numReplicas) (htid : tid < maxThreadsPerReplica)
    (hreaders : log.readers rid = none) (htickets : log.tickets rid = none)
    (hlocal : log.localVersions 0 = some version) (hsynced : version ≥ log.versionUpperBound)
    (hcount : node.lock.refCounts tid = 0) (hfree : node.lock.excLocked = false)
    (hdata : node.lock.data = some view) :
    Gets s₀ (shown ++ [.call rid (.read op 0), .ret rid (.read (DT.dispatchSpec view op))]) log
      node := by
  have hguard := h.acquireRead tid rid op hthread hreplicas htid hreaders htickets hlocal
    hsynced hcount hfree
  have hsame : (node.lock.setCount tid 1).setCount tid
      ((node.lock.setCount tid 1).refCounts tid - 1) = node.lock := by
    simp only [RwLock.Shared.setCount, Function.update_self, Nat.sub_self, Function.update_idem]
    rw [← hcount, Function.update_eq_self]
  have hrelease : RwLock.Step maxThreadsPerReplica tid (node.lock.setCount tid 1) .sharedGuard
      .internal node.lock .idle := by
    have hstep : RwLock.Step maxThreadsPerReplica tid (node.lock.setCount tid 1) _ _ _ _ :=
      .releaseRead
    rwa [hsame] at hstep
  have hreturned := hguard.nextClient { node with lock := node.lock.setCount tid 1 }
    (.dispatch rid op view (.borrow view hdata))
  have hreleased := hreturned.nextClient node (.releaseRead rid _ node.lock hrelease)
  have hdone := hreleased.nextClient node (.doneRead rid _)
  simp only [Label.event, Option.toList_some, Option.toList_none, List.append_nil,
    List.append_assoc, List.singleton_append, PMap.insert_insert, PMap.remove_insert,
    PMap.remove_of_eq_none hreaders, Node.setThread] at hdone
  rwa [← hthread, Function.update_eq_self] at hdone

end Steps

/-! ## Two updates and a read -/

section Joint

/-- A replica of which the first two threads run. -/
def twoThreads (combiner : Nat) (lock : RwLock.Shared DT.View) (slot₀ slot₁ : Context DT)
    (t₀ t₁ : Thread DT) : Node DT where
  combiner := combiner
  lock := lock
  contexts
    | 0 => slot₀
    | 1 => slot₁
    | _ + 2 => ⟨0, none, none⟩
  threads
    | 0 => t₀
    | 1 => t₁
    | _ + 2 => ⟨.idle, none⟩

/-- A lock nobody counts himself in. -/
def uncounted (data : Option DT.View) (excLocked : Bool) : RwLock.Shared DT.View :=
  ⟨data, excLocked, fun _ ↦ 0⟩

variable {s₀ : State DT} {shown : List (Event ReqId (InputOperation DT) (OutputOperation DT))}
  {log log' : NrLog.State DT} {node : Node DT}

private theorem Gets.eq_twoThreads {combiner : Nat} {lock : RwLock.Shared DT.View}
    {slot₀ slot₁ : Context DT} {t₀ t₁ : Thread DT} (h : Gets s₀ shown log node)
    (hcombiner : node.combiner = combiner) (hlock : node.lock = lock)
    (hslot₀ : node.contexts 0 = slot₀) (hslot₁ : node.contexts 1 = slot₁)
    (hslots : ∀ i, node.contexts (i + 2) = ⟨0, none, none⟩)
    (ht₀ : node.threads 0 = t₀) (ht₁ : node.threads 1 = t₁)
    (hthreads : ∀ i, node.threads (i + 2) = ⟨.idle, none⟩) :
    Gets s₀ shown log (twoThreads combiner lock slot₀ slot₁ t₀ t₁) := by
  have heq : node = twoThreads combiner lock slot₀ slot₁ t₀ t₁ := by
    obtain ⟨combiner', lock', contexts, threads⟩ := node
    cases hcombiner
    cases hlock
    refine congrArg₂ (Node.mk combiner' lock') (funext fun i ↦ ?_) (funext fun i ↦ ?_)
    · rcases i with _ | _ | i
      · exact hslot₀
      · exact hslot₁
      · exact hslots i
    · rcases i with _ | _ | i
      · exact ht₀
      · exact ht₁
      · exact hthreads i
  rwa [heq] at h

-- Two threads have their operations in their slots, and the first one has the combiner lock.
private theorem gets_enqueued (op₀ op₁ : DT.WriteOperation) :
    Gets (initialState DT 1) [.call 0 (.write op₀), .call 1 (.write op₁)]
      { NrLog.initialState DT 1 with
        tickets := (PMap.empty.insert 0 (.pending op₀)).insert 1 (.pending op₁) }
      (twoThreads 2 (uncounted (some DT.initSpec) false) ⟨1, some ⟨op₀, none⟩, some 0⟩
        ⟨1, some ⟨op₁, none⟩, some 1⟩ ⟨.loadResponse 0 0, some ⟨.collect 0, [], [], [], []⟩⟩
        ⟨.loadResponse 1 0, none⟩) := by
  have hcalled := (Gets.initial DT 1).client 0 rfl
    (.startWrite 0 op₀ Nat.one_pos (by decide) rfl rfl)
  have hboth := hcalled.client 1 rfl (.startWrite 1 op₁ Nat.one_pos (by decide) rfl rfl)
  have hplaced := hboth.client 0 rfl (.enqueueOp 0 op₀)
  have hstored := hplaced.client 0 rfl (.storePending 0)
  have hplaced' := hstored.client 1 rfl (.enqueueOp 1 op₁)
  have hstored' := hplaced'.client 1 rfl (.storePending 1)
  have hfree := hstored'.combine 0 rfl (.combinerFree rfl rfl)
  have hcombiner := hfree.combine 0 rfl (.casCombiner rfl rfl)
  have htaken := hcombiner.combine 1 rfl (.combinerTaken rfl two_ne_zero)
  exact htaken.eq_twoThreads rfl rfl rfl rfl (fun _ ↦ rfl) rfl rfl fun _ ↦ rfl

/-- The log when the first thread has scanned the slots and has the data. -/
def collectedLog (op₀ op₁ : DT.WriteOperation) : NrLog.State DT :=
  { NrLog.initialState DT 1 with
    data := (NrLog.initialState DT 1).data.insert 0 DT.initSpec
    tickets := NrLog.collect ((PMap.empty.insert 0 (NrLog.Ticket.pending op₀)).insert 1
      (NrLog.Ticket.pending op₁)) 0 [0, 1] }.setThread 0 ⟨.appendLoadTail, [0, 1], [op₀, op₁], []⟩

/-- The first thread has scanned the slots and has the data. -/
theorem gets_collected (op₀ op₁ : DT.WriteOperation) :
    Gets (initialState DT 1) [.call 0 (.write op₀), .call 1 (.write op₁)]
      (collectedLog op₀ op₁)
      (twoThreads 2 (uncounted none true) ⟨1, some ⟨op₀, none⟩, none⟩
        ⟨1, some ⟨op₁, none⟩, none⟩
        ⟨.loadResponse 0 0,
          some ⟨.appendExecute, [op₀, op₁], 1 :: 1 :: List.replicate 62 0, [0, 1], []⟩⟩
        ⟨.loadResponse 1 0, none⟩) := by
  have hrequest := (gets_enqueued op₀ op₁).combine 0 rfl (.collectRequest 0 rfl (by decide) rfl)
  have hcopied := hrequest.combine 0 rfl (.copyOp 0 op₀ none rfl rfl)
  have hrequest' := hcopied.combine 0 rfl (.collectRequest 1 rfl (by decide) rfl)
  have hcopied' := hrequest'.combine 0 rfl (.copyOp 1 op₁ none rfl rfl)
  have hscanned := hcopied'.collectEmpty 62 (by decide) fun _ ↦ rfl
  have hcollected := hscanned.combine 0 rfl (.collected rfl)
  have hlocked := hcollected.combine 0 rfl (.acquireWrite _ _ _ rfl (.lockExc rfl))
  have hcounts := hlocked.checkCounts 64 (by decide) (fun _ ↦ rfl)
  have hdata := hcounts.combine 0 rfl (.takeData _ _ _ rfl (.take _ rfl))
  exact hdata.eq_twoThreads rfl rfl rfl rfl (fun _ ↦ rfl) rfl rfl fun _ ↦ rfl

/-- The first thread combined for both and is about to release the combiner lock. -/
theorem gets_responded (op₀ op₁ : DT.WriteOperation) :
    ∃ log, Gets (initialState DT 1) [.call 0 (.write op₀), .call 1 (.write op₁)] log
      (twoThreads 2
        (uncounted (some (DT.dispatchMutSpec (DT.dispatchMutSpec DT.initSpec op₀).1 op₁).1) false)
        ⟨0, some ⟨op₀, some (DT.dispatchMutSpec DT.initSpec op₀).2⟩, some 0⟩
        ⟨0, some ⟨op₁, some (DT.dispatchMutSpec (DT.dispatchMutSpec DT.initSpec op₀).1 op₁).2⟩,
          some 1⟩
        ⟨.loadResponse 0 0,
          some ⟨.releaseCombiner, [op₀, op₁], 1 :: 1 :: List.replicate 62 0, [0, 1],
            [(DT.dispatchMutSpec DT.initSpec op₀).2,
              (DT.dispatchMutSpec (DT.dispatchMutSpec DT.initSpec op₀).1 op₁).2]⟩⟩
        ⟨.loadResponse 1 0, none⟩) ∧
      log.numReplicas = 1 ∧ log.readers = .empty ∧ log.tickets 2 = none ∧
      log.versionUpperBound = 2 ∧ log.localVersions 0 = some 2 := by
  obtain ⟨labels, log, hrun, -, hlog⟩ := NrLog.exists_run_append_execute (n := 0)
    (c := collectedLog op₀ op₁) (t := ⟨.appendLoadTail, [0, 1], [op₀, op₁], []⟩) []
    ⟨rfl, fun _ _ hi ↦ by cases hi⟩ rfl rfl (List.cons_ne_nil _ _)
    (show 2 ≤ logSize - gcFromHead by decide) rfl (Nat.le_refl 0) rfl
  have happended := (gets_collected op₀ op₁).appendExecute 0 rfl rfl hrun
  rw [hlog] at happended
  have hexecuted := happended.combine 0 rfl (.executed _ rfl rfl rfl)
  have hput := hexecuted.combine 0 rfl (.putData _ _ rfl rfl (.put _))
  have hunlocked := hput.combine 0 rfl (.unlockExc _ rfl .unlockExc)
  have hresponse := hunlocked.combine 0 rfl (.respond 0 0 1 _ none _ rfl rfl one_ne_zero rfl rfl)
  have hstored := hresponse.combine 0 rfl (.storeResponse 0 0 rfl)
  have hresponse' := hstored.combine 0 rfl (.respond 1 1 1 _ none _ rfl rfl one_ne_zero rfl rfl)
  have hstored' := hresponse'.combine 0 rfl (.storeResponse 1 1 rfl)
  have hnone := hstored'.respondNone 62 fun i hle hlt ↦ by
    obtain ⟨j, rfl⟩ := Nat.exists_eq_add_of_le' hle
    exact List.getElem?_replicate_of_lt (by omega)
  have hresponded := hnone.combine 0 rfl (.responded _ rfl)
  refine ⟨_, hresponded.eq_twoThreads rfl rfl rfl rfl (fun _ ↦ rfl) rfl rfl fun _ ↦ rfl, rfl, rfl,
    rfl, rfl, rfl⟩

/-- Both threads have returned. -/
theorem gets_updated (op₀ op₁ : DT.WriteOperation) :
    ∃ log node, Gets (initialState DT 1)
      [.call 0 (.write op₀), .call 1 (.write op₁),
        .ret 0 (.write (DT.dispatchMutSpec DT.initSpec op₀).2),
        .ret 1 (.write (DT.dispatchMutSpec (DT.dispatchMutSpec DT.initSpec op₀).1 op₁).2)]
      log node ∧
      (∀ tid, node.threads tid = ⟨.idle, none⟩) ∧
      node.lock = uncounted
        (some (DT.dispatchMutSpec (DT.dispatchMutSpec DT.initSpec op₀).1 op₁).1) false ∧
      log.numReplicas = 1 ∧ log.readers = .empty ∧ log.tickets 2 = none ∧
      log.versionUpperBound = 2 ∧ log.localVersions 0 = some 2 := by
  obtain ⟨log, hresponded, hreplicas, hreaders, htickets, hbound, hlocal⟩ := gets_responded op₀ op₁
  have hreleased := hresponded.combine 0 rfl (.releaseCombiner rfl)
  have hloaded := hreleased.client 0 rfl (.loadResponse 0 0 rfl)
  have htook := hloaded.client 0 rfl (.takeResponse 0 _ _ rfl)
  have hreturned := htook.client 0 rfl (.doneWrite 0 _)
  have hloaded' := hreturned.client 1 rfl (.loadResponse 1 0 rfl)
  have htook' := hloaded'.client 1 rfl (.takeResponse 1 _ _ rfl)
  have hreturned' := htook'.client 1 rfl (.doneWrite 1 _)
  refine ⟨_, _, hreturned', ?_, rfl, hreplicas, hreaders, ?_, hbound, hlocal⟩
  · rintro (_ | _ | i) <;> rfl
  · exact htickets

/-- Two threads of a replica call `execute_mut`, one of them combines for both, and a third call
reads the data with both updates. -/
theorem exists_run_updates_read (op₀ op₁ : DT.WriteOperation) (op : DT.ReadOperation) :
    ∃ labels s, (machine DT).Run (initialState DT 1) labels s ∧
      history labels = [.call 0 (.write op₀), .call 1 (.write op₁),
        .ret 0 (.write (DT.dispatchMutSpec DT.initSpec op₀).2),
        .ret 1 (.write (DT.dispatchMutSpec (DT.dispatchMutSpec DT.initSpec op₀).1 op₁).2),
        .call 2 (.read op 0),
        .ret 2 (.read (DT.dispatchSpec
          (DT.dispatchMutSpec (DT.dispatchMutSpec DT.initSpec op₀).1 op₁).1 op))] := by
  obtain ⟨log, node, hupdated, hidle, hlock, hreplicas, hreaders, htickets, hbound, hlocal⟩ :=
    gets_updated op₀ op₁
  have hread := hupdated.read 0 2 op (hidle 0) (by rw [hreplicas]; decide)
    (by decide) (by rw [hreaders]; rfl) htickets hlocal hbound.le (by rw [hlock]; rfl)
    (by rw [hlock]; rfl) (by rw [hlock]; rfl)
  obtain ⟨labels, s, hrun, hhistory, _⟩ := hread
  exact ⟨labels, s, hrun, hhistory⟩

end Joint

end Replica

end NrKernel.NodeReplication
