import NrKernel.NodeReplication.NrLogRequests
import NrKernel.NodeReplication.SoloRuns

/-!
# Responses of a batch

What a combiner thread answers: from the reservation of its batch on, its responses are the
results of the operations of the batch that its data has gone past, each at its log index. A
call of `execute` finds entries of its own node only in a batch that is in the log and not
answered, so every other call leaves the responses alone.
-/

namespace NrKernel.NodeReplication

open Lib

universe u

namespace NrLog

variable {DT : Dispatch.{u}}

/-- The log index up to which the data of a node is applied, given its published version
(`exec/log.rs:1316–1579`). -/
def Pc.applied (localVersion : Nat) : Pc → Nat
  | .executeLoadTail _ version => version
  | .executeLoadAlive _ version _ => version
  | .executeDispatch _ version _ => version
  | .executeFetchMax _ globalTail => globalTail
  | .executeStoreLocal _ globalTail => globalTail
  | _ => localVersion

/-- The thread is in a call of `execute` made from a given place. -/
def Pc.Executing (ret : Return) : Pc → Prop
  | .executeLoadLocal ret' => ret' = ret
  | .executeLoadTail ret' _ => ret' = ret
  | .executeLoadAlive ret' _ _ => ret' = ret
  | .executeDispatch ret' _ _ => ret' = ret
  | .executeFetchMax ret' _ => ret' = ret
  | .executeStoreLocal ret' _ => ret' = ret
  | _ => False

/-- The steps made while the thread of a node is in a call of `execute`. -/
def InExecute (n : NodeId) (ret : Return) (pre : State DT) (_ : Label DT) (_ : State DT) : Prop :=
  ∃ t, pre.threads n = some t ∧ t.pc.Executing ret

/-- The batch is the last one the node reserved a range for. -/
def LastReserved (labels : List (Label DT)) (n : NodeId) (tail : Nat)
    (operations : List DT.WriteOperation) : Prop :=
  ∃ before after, labels = before ++ .reserve n tail operations :: after ∧
    ∀ tail' operations', .reserve n tail' operations' ∉ after

/-- The sequential results of a batch at its place in the log. -/
def batchResults (log : PMap Nat (UnboundedLog.LogEntry DT)) (tail : Nat)
    (operations : List DT.WriteOperation) : List DT.Response :=
  operations.mapIdx fun j op ↦
    (DT.dispatchMutSpec (UnboundedLog.computeNrstate log (tail + j)) op).2

/-- The batch of a thread is in the log at an index, its entries are all of the node that are
not applied, and the responses are the results of those that are. -/
structure BatchAt (labels : List (Label DT)) (log : PMap Nat (UnboundedLog.LogEntry DT))
    (n : NodeId) (applied : Nat) (operations : List DT.WriteOperation)
    (responses : List DT.Response) (tail : Nat) : Prop where
  reserved : operations ≠ [] → LastReserved labels n tail operations
  logged : ∀ j op, operations[j]? = some op → log (tail + j) = some ⟨op, n⟩
  own : ∀ i entry, log i = some entry → entry.nodeId = n → applied ≤ i →
    tail ≤ i ∧ i < tail + operations.length
  responses : responses = (batchResults log tail operations).take (applied - tail)

/-- Every thread with a reserved batch has its place in the log. -/
def Served (labels : List (Label DT)) (c : State DT) (u : UnboundedLog.State DT) : Prop :=
  ∀ n t version, c.threads n = some t → c.localVersions n = some version → t.pc.Reserved →
    ∃ tail, BatchAt labels u.log n (t.pc.applied version) t.operations t.responses tail

section Applied

variable {version globalTail : Nat} {ret : Return}

/-- The write loop of `append` applies nothing. -/
@[simp] theorem applied_appendNext (nops tail idx : Nat) (advance : Bool) :
    (appendNext nops tail idx advance).applied version = version := by
  unfold appendNext
  split
  · rfl
  · split <;> rfl

/-- The scan of the versions applies nothing. -/
@[simp] theorem applied_advanceNext (numReplicas globalHead globalTail least idx : Nat) :
    (advanceNext numReplicas globalHead globalTail least idx).applied version = version := by
  unfold advanceNext
  split
  · rfl
  · split <;> rfl

/-- The access after the head is stored applies nothing. -/
@[simp] theorem applied_advanceStored (globalTail least : Nat) :
    (advanceStored globalTail least).applied version = version := by
  unfold advanceStored
  split <;> rfl

/-- The check for room applies nothing. -/
@[simp] theorem applied_appendChecked (tail head nops : Nat) :
    (appendChecked tail head nops).applied version = version := by
  unfold appendChecked
  split
  · rfl
  · split <;> rfl

/-- Returning from `execute` applies nothing. -/
@[simp] theorem applied_resume : ret.resume.applied version = version := by
  cases ret <;> rfl

/-- The loop test of `execute` goes on at the version. -/
theorem applied_executeNext {cur : Nat} (h : cur ≤ globalTail) :
    (executeNext ret cur globalTail).applied version = cur := by
  unfold executeNext
  split
  · rfl
  · next hnot => exact Nat.le_antisymm (Nat.le_of_not_lt hnot) h

private theorem applied_executeChecked (h : version ≤ globalTail) :
    (executeChecked ret version globalTail).applied version = version := by
  unfold executeChecked
  split
  · exact applied_resume
  · exact applied_executeNext h

end Applied

section Batch

variable {labels : List (Label DT)} {label : Label DT}
  {log log' : PMap Nat (UnboundedLog.LogEntry DT)} {n : NodeId} {applied tail : Nat}
  {operations : List DT.WriteOperation} {responses : List DT.Response}

/-- A batch has a result for each operation. -/
@[simp] theorem length_batchResults :
    (batchResults log tail operations).length = operations.length :=
  List.length_mapIdx

private theorem getElem?_batchResults {j : Nat} {op : DT.WriteOperation}
    (h : operations[j]? = some op) : (batchResults log tail operations)[j]? =
      some (DT.dispatchMutSpec (UnboundedLog.computeNrstate log (tail + j)) op).2 := by
  rw [batchResults, List.getElem?_mapIdx, h]
  rfl

/-- The state computed from a prefix depends on this prefix alone. -/
theorem computeNrstate_congr {version : Nat} (h : ∀ i < version, log' i = log i) :
    UnboundedLog.computeNrstate log' version = UnboundedLog.computeNrstate log version := by
  induction version with
  | zero => rfl
  | succ version ih =>
    rw [UnboundedLog.computeNrstate, UnboundedLog.computeNrstate, h version (Nat.lt_succ_self _),
      ih fun i hi ↦ h i (Nat.lt_succ_of_lt hi)]

private theorem LastReserved.snoc (h : LastReserved labels n tail operations)
    (hlabel : ∀ tail' operations', label ≠ .reserve n tail' operations') :
    LastReserved (labels ++ [label]) n tail operations := by
  obtain ⟨before, after, rfl, hlast⟩ := h
  refine ⟨before, after ++ [label], ?_, fun tail' operations' hmem ↦ ?_⟩
  · rw [List.append_assoc, List.cons_append]
  · rcases List.mem_append.mp hmem with hold | hnew
    · exact hlast tail' operations' hold
    · exact hlabel tail' operations' (List.mem_singleton.mp hnew).symm

-- Once all responses are there, the entry at the applied index is not of the node.
private theorem BatchAt.nodeId_ne_of_answered
    (h : BatchAt labels log n applied operations responses tail)
    (hlength : responses.length = operations.length) {entry : UnboundedLog.LogEntry DT}
    (hentry : log applied = some entry) : entry.nodeId ≠ n := by
  intro hnode
  have hown := h.own applied entry hentry hnode (Nat.le_refl _)
  rw [h.responses, List.length_take, length_batchResults] at hlength
  omega

/-- All responses are there when the node has no entry left to apply. -/
theorem BatchAt.responses_eq (h : BatchAt labels log n applied operations responses tail)
    (hnone : ∀ i entry, log i = some entry → applied ≤ i → entry.nodeId ≠ n) :
    responses = batchResults log tail operations := by
  rw [h.responses]
  refine List.take_of_length_le ?_
  rw [length_batchResults]
  by_contra hlt
  -- otherwise the last operation of the batch is left
  obtain ⟨op, hop⟩ : ∃ op, operations[operations.length - 1]? = some op :=
    ⟨_, List.getElem?_eq_getElem (by omega)⟩
  exact hnone _ _ (h.logged _ op hop) (by omega) rfl

/-- The batch keeps its place while the log grows by entries of other nodes. -/
theorem BatchAt.frame (h : BatchAt labels log n applied operations responses tail)
    (hlabel : ∀ tail' operations', label ≠ .reserve n tail' operations')
    (hkeep : ∀ i, (∃ entry, log i = some entry) → log' i = log i)
    (hdom : ∀ i j, i < j → (∃ entry, log j = some entry) → ∃ entry, log i = some entry)
    (hnew : ∀ i entry, log' i = some entry → log i = some entry ∨ entry.nodeId ≠ n) :
    BatchAt (labels ++ [label]) log' n applied operations responses tail where
  reserved := fun hne ↦ (h.reserved hne).snoc hlabel
  logged := by
    intro j op hop
    have hlog := h.logged j op hop
    rw [hkeep _ ⟨_, hlog⟩, hlog]
  own := by
    intro i entry hentry hnode hle
    exact h.own i entry ((hnew i entry hentry).resolve_right (absurd hnode)) hnode hle
  responses := by
    have hresults : batchResults log' tail operations = batchResults log tail operations := by
      refine List.ext_getElem? fun j ↦ ?_
      cases hop : operations[j]? with
      | none =>
        rw [batchResults, batchResults, List.getElem?_mapIdx, List.getElem?_mapIdx, hop]
        rfl
      | some op =>
        rw [getElem?_batchResults hop, getElem?_batchResults hop,
          computeNrstate_congr fun i hi ↦ hkeep i (hdom i _ hi ⟨_, h.logged j op hop⟩)]
    rw [hresults]
    exact h.responses

end Batch

section Steps

variable {labels : List (Label DT)} {label : Label DT} {c c' : State DT}
  {u u' : UnboundedLog.State DT} {b b' : CyclicBuffer.State DT} {n m : NodeId}
  {t t' : Thread DT}

/-- Only the compare-and-swap of its own thread reserves a range for a node. -/
theorem CombinerStep.reserve_eq {tail : Nat} {operations : List DT.WriteOperation}
    (h : CombinerStep n t c (.reserve m tail operations) c') :
    m = n ∧ operations = t.operations ∧ c.tail = tail ∧
      ∃ advance, t.pc = .appendReserve tail advance := by
  cases h with
  | reserve _ advance hpc htail => exact ⟨rfl, rfl, htail, advance, hpc⟩

private theorem CombinerStep.localVersions_eq (h : CombinerStep n t c label c') (hm : m ≠ n) :
    c'.localVersions m = c.localVersions m := by
  cases h with
  | storeLocal => exact PMap.insert_of_ne _ _ hm
  | _ => rfl

/-- A node whose combiner is ready has applied all its entries. -/
theorem nodeId_ne_of_ready (hu : UnboundedLog.Inv u) (hready : u.combiner n = some .ready)
    {version : Nat} (hv : u.localVersions n = some version) (i : Nat)
    (entry : UnboundedLog.LogEntry DT) (hentry : u.log i = some entry) (hle : version ≤ i) :
    entry.nodeId ≠ n := by
  intro hnode
  have hnil : UnboundedLog.localIdxs u.log n version u.tail = [] :=
    List.map_eq_nil_iff.mp (hu.combiner_wf n _ version hready hv).pending.symm
  have hmem : i ∈ UnboundedLog.localIdxs u.log n version u.tail :=
    UnboundedLog.mem_localIdxs.mpr ⟨⟨hle, (hu.log_dom i).mp ⟨entry, hentry⟩⟩, entry, hentry, hnode⟩
  rw [hnil] at hmem
  exact List.not_mem_nil hmem

/-- Entries the log has stay. -/
theorem log_grows (hu : UnboundedLog.Inv u) (hu' : UnboundedLog.Inv u') (hc : Coupled c u b)
    (hc' : Coupled c' u' b') (hstep : Next c label c') (hlog : LogExtends label u.log u'.log)
    (i : Nat) (hi : ∃ entry, u.log i = some entry) : u'.log i = u.log i := by
  have hlt := (hu.log_dom i).mp hi
  have htail := hc.shared.tail
  have htail' := hc'.shared.tail
  rcases hstep.tail_eq with ⟨hnone, hsame⟩ | ⟨p, hp, hptail, hgrown⟩
  · obtain ⟨entry, hentry⟩ := (hu'.log_dom i).mpr (by omega)
    rcases hlog i entry hentry with hold | ⟨tail, operations, rfl, _⟩
    · rw [hentry, hold]
    · cases hnone
  · obtain ⟨entry, hentry⟩ := (hu'.log_dom i).mpr (by omega)
    rcases hlog i entry hentry with hold | ⟨tail, operations, rfl, hle, _⟩
    · rw [hentry, hold]
    · cases hp
      change tail = c.tail at hptail
      omega

/-- An access inside a reserved batch keeps the responses and the applied prefix, or it applies
the next entry. -/
theorem CombinerStep.applied_cases (h : CombinerStep n t c label c') (hu : UnboundedLog.Inv u)
    (hb : CyclicBuffer.Inv b) (hc : Coupled c u b) (ht : c.threads n = some t)
    (ht' : c'.threads n = some t') (hreserved : t'.pc.Reserved) {version version' : Nat}
    (hv : c.localVersions n = some version) (hv' : c'.localVersions n = some version') :
    (t'.responses = t.responses ∧ t'.pc.applied version' = t.pc.applied version) ∨
      ∃ ret cur globalTail entry view, t.pc = .executeDispatch ret cur globalTail ∧
        (c.slog (index cur)).logEntry = some entry ∧ c.data n = some view ∧
        t'.responses = pushResponse t.responses n entry (DT.dispatchMutSpec view entry.op).2 ∧
        t'.pc.applied version' = cur + 1 := by
  obtain ⟨phase, buffer, hphase, hbuffer, hcoupled⟩ := hc.exists_phases hu hb ht
  have hsame : ∀ {old : Pc}, t.pc = old → c'.localVersions = c.localVersions →
      t'.responses = t.responses → t'.pc.applied version = old.applied version →
      t'.responses = t.responses ∧ t'.pc.applied version' = t.pc.applied version := by
    intro old hpc hversions hresponses happlied
    rw [hversions, hv] at hv'
    rw [← Option.some.inj hv', hpc]
    exact ⟨hresponses, happlied⟩
  cases h with
  | appendLoadTail hpc =>
    obtain rfl := State.eq_of_setThread ht'
    exact .inl (hsame hpc rfl rfl rfl)
  | appendLoadHead tail hpc =>
    obtain rfl := State.eq_of_setThread ht'
    exact .inl (hsame hpc rfl rfl (applied_appendChecked _ _ _))
  | reserve tail advance hpc =>
    obtain rfl := State.eq_of_setThread ht'
    exact .inl (hsame hpc rfl rfl (applied_appendNext _ _ _ _))
  | reserveFail tail advance hpc =>
    obtain rfl := State.eq_of_setThread ht'
    exact .inl (hsame hpc rfl rfl rfl)
  | writeEntry tail idx advance op hpc =>
    obtain rfl := State.eq_of_setThread ht'
    exact .inl (hsame hpc rfl rfl rfl)
  | storeAlive tail idx advance hpc =>
    obtain rfl := State.eq_of_setThread ht'
    exact .inl (hsame hpc rfl rfl (applied_appendNext _ _ _ _))
  | advanceLoadHead hpc =>
    obtain rfl := State.eq_of_setThread ht'
    exact .inl (hsame hpc rfl rfl rfl)
  | advanceLoadTail globalHead hpc =>
    obtain rfl := State.eq_of_setThread ht'
    exact .inl (hsame hpc rfl rfl rfl)
  | advanceLoadFirst globalHead globalTail least hpc =>
    obtain rfl := State.eq_of_setThread ht'
    exact .inl (hsame hpc rfl rfl (applied_advanceNext _ _ _ _ _))
  | advanceLoadNext globalHead globalTail least idx other hpc =>
    obtain rfl := State.eq_of_setThread ht'
    exact .inl (hsame hpc rfl rfl (applied_advanceNext _ _ _ _ _))
  | storeHead globalTail least hpc =>
    obtain rfl := State.eq_of_setThread ht'
    exact .inl (hsame hpc rfl rfl (applied_advanceStored _ _))
  | executeLoadLocal ret loaded hpc hlocal =>
    obtain rfl := State.eq_of_setThread ht'
    exact .inl (hsame hpc rfl rfl (Option.some.inj (hlocal.symm.trans hv)))
  | executeLoadTail ret loaded hpc =>
    obtain rfl := State.eq_of_setThread ht'
    simp only [Thread.Coupled, hpc] at hcoupled
    obtain ⟨rfl, _⟩ := hcoupled
    rw [← hc.shared.buffer_localVersions] at hv
    -- the version loaded is still the published one
    obtain rfl : loaded = version := hb.combiner_wf n _ version hbuffer hv
    have hle := hb.version_le n loaded hv
    rw [hc.shared.buffer_tail] at hle
    rw [hc.shared.buffer_localVersions] at hv
    exact .inl (hsame hpc rfl rfl (applied_executeChecked hle))
  | executeLoadAlive ret cur globalTail hpc =>
    obtain rfl := State.eq_of_setThread ht'
    refine .inl (hsame hpc rfl rfl ?_)
    dsimp only
    split <;> rfl
  | dispatch ret cur globalTail entry view hpc hentry hdata =>
    obtain rfl := State.eq_of_setThread ht'
    simp only [Thread.Coupled, hpc] at hcoupled
    exact .inr ⟨ret, cur, globalTail, entry, view, hpc, hentry, hdata, rfl,
      applied_executeNext hcoupled.1⟩
  | dispatchPanic ret cur globalTail hpc hentry =>
    obtain rfl := State.eq_of_setThread ht'
    exact hreserved.elim
  | fetchMax ret globalTail hpc =>
    obtain rfl := State.eq_of_setThread ht'
    exact .inl (hsame hpc rfl rfl rfl)
  | storeLocal ret globalTail hpc =>
    obtain rfl := State.eq_of_setThread ht'
    obtain rfl : globalTail = version' := Option.some.inj ((PMap.insert_self _ _ _).symm.trans hv')
    rw [hpc]
    exact .inl ⟨rfl, applied_resume⟩

/-- An entry that is applied adds its response exactly when it is one of the batch. -/
theorem BatchAt.dispatch {log : PMap Nat (UnboundedLog.LogEntry DT)} {cur tail : Nat}
    {operations : List DT.WriteOperation} {responses : List DT.Response}
    (h : BatchAt labels log n cur operations responses tail)
    {entry : CyclicBuffer.ConcreteLogEntry DT}
    (hentry : log cur = some ⟨entry.op, entry.nodeId⟩) :
    BatchAt labels log n (cur + 1) operations
      (pushResponse responses n entry
        (DT.dispatchMutSpec (UnboundedLog.computeNrstate log cur) entry.op).2) tail := by
  refine ⟨h.reserved, h.logged, fun i e he hnode hle ↦ h.own i e he hnode (by omega), ?_⟩
  rw [pushResponse, h.responses]
  by_cases hnode : entry.nodeId = n
  · rw [if_pos hnode]
    obtain ⟨hle, hlt⟩ := h.own cur _ hentry hnode (Nat.le_refl _)
    obtain ⟨op, hop⟩ : ∃ op, operations[cur - tail]? = some op :=
      ⟨_, List.getElem?_eq_getElem (by omega)⟩
    have hlogged := h.logged _ op hop
    have hresult : (batchResults log tail operations)[cur - tail]? = some _ :=
      getElem?_batchResults hop
    rw [Nat.add_sub_cancel' hle] at hlogged hresult
    cases hentry.symm.trans hlogged
    rw [Nat.succ_sub hle, List.take_add_one, hresult]
    rfl
  · rw [if_neg hnode]
    -- the entry is before the batch or behind it
    have houtside : cur + 1 ≤ tail ∨ tail + operations.length ≤ cur := by
      by_contra hin
      obtain ⟨op, hop⟩ : ∃ op, operations[cur - tail]? = some op :=
        ⟨_, List.getElem?_eq_getElem (by omega)⟩
      have hlogged := h.logged _ op hop
      rw [Nat.add_sub_cancel' (by omega)] at hlogged
      cases hentry.symm.trans hlogged
      exact hnode rfl
    rcases houtside with hbefore | hbehind
    · rw [Nat.sub_eq_zero_of_le hbefore, Nat.sub_eq_zero_of_le (by omega)]
    · rw [List.take_of_length_le (by rw [length_batchResults]; omega),
        List.take_of_length_le (by rw [length_batchResults]; omega)]

/-- The data a thread applies the next entry to is that of the log before the entry. -/
theorem data_of_dispatch (hu : UnboundedLog.Inv u) (hb : CyclicBuffer.Inv b)
    (hc : Coupled c u b) (ht : c.threads n = some t) {ret : Return} {cur globalTail : Nat}
    (hpc : t.pc = .executeDispatch ret cur globalTail)
    {entry : CyclicBuffer.ConcreteLogEntry DT}
    (hentry : (c.slog (index cur)).logEntry = some entry) {view : DT.View}
    (hdata : c.data n = some view) :
    u.log cur = some ⟨entry.op, entry.nodeId⟩ ∧
      view = UnboundedLog.computeNrstate u.log cur := by
  obtain ⟨phase, buffer, hphase, hbuffer, hcoupled⟩ := hc.exists_phases hu hb ht
  simp only [Thread.Coupled, hpc] at hcoupled
  obtain ⟨_, ⟨start, val, rfl⟩, queue, idx, rfl, _⟩ := hcoupled
  obtain ⟨entry', hentry', hlog⟩ := hc.guarded_entry hb hbuffer
  obtain rfl : entry = entry' := Option.some.inj (hentry.symm.trans hentry')
  obtain ⟨version, hversion⟩ := hu.exists_version hphase
  refine ⟨hlog, ?_⟩
  rw [hu.replica_state n view (hc.shared.replicas ▸ hdata),
    UnboundedLog.currentLocalVersion_eq hphase hversion]
  rfl

/-- A reservation finds the node with no entry left and no response. -/
theorem BatchAt.reserve (hu : UnboundedLog.Inv u) (hb : CyclicBuffer.Inv b)
    (hc : Coupled c u b) (hu' : UnboundedLog.Inv u') (hb' : CyclicBuffer.Inv b')
    (hc' : Coupled c' u' b') (ht : c.threads n = some t) {tail : Nat}
    (hlog : LogExtends (.reserve n tail t.operations) u.log u'.log)
    (hstep : CombinerStep n t c (.reserve n tail t.operations) c')
    (ht' : c'.threads n = some t') {version : Nat} (hv : c.localVersions n = some version) :
    BatchAt (labels ++ [.reserve n tail t.operations]) u'.log n version t.operations t.responses
      tail := by
  obtain ⟨phase, buffer, hphase, hbuffer, hcoupled⟩ := hc.exists_phases hu hb ht
  obtain ⟨phase', buffer', _, _, hcoupled'⟩ := hc'.exists_phases hu' hb' ht'
  cases hstep with
  | reserve _ advance hpc htail =>
    simp only [Thread.Coupled, hpc] at hcoupled
    obtain ⟨rfl, ⟨hresponses, _⟩, _⟩ := hcoupled
    have hle := hb.version_le n version (by rw [hc.shared.buffer_localVersions, hv])
    rw [hc.shared.buffer_tail, htail] at hle
    refine ⟨fun _ ↦ ⟨labels, [], rfl, by simp⟩, fun j op hop ↦ ?_, fun i entry hi hnode hvi ↦ ?_,
      ?_⟩
    · obtain rfl := State.eq_of_setThread ht'
      have hlt := (List.getElem?_eq_some_iff.mp hop).1
      have hwrites : appendNext t.operations.length tail 0 advance =
          .appendWriteEntry tail 0 advance := if_pos (by omega)
      simp only [Thread.Coupled, hwrites] at hcoupled'
      exact hcoupled'.1.2.2 j op hop
    · rcases hlog i entry hi with hold | ⟨_, _, hreserve, hti, hop⟩
      · rw [← hc.shared.localVersions] at hv
        exact absurd hnode (nodeId_ne_of_ready hu hphase hv i entry hold hvi)
      · cases hreserve
        have := (List.getElem?_eq_some_iff.mp hop).1
        omega
    · rw [hresponses, Nat.sub_eq_zero_of_le hle, List.take_zero]

/-- The place of a batch stays while other threads work. -/
theorem Served.others (h : Served labels c u) (hu : UnboundedLog.Inv u)
    (hu' : UnboundedLog.Inv u') (hc : Coupled c u b) (hc' : Coupled c' u' b')
    (hstep : Next c label c') (hlog : LogExtends label u.log u'.log) {version : Nat}
    (ht : c.threads n = some t) (hv : c.localVersions n = some version)
    (hreserved : t.pc.Reserved)
    (hlabel : ∀ tail operations, label ≠ .reserve n tail operations) :
    ∃ tail, BatchAt (labels ++ [label]) u'.log n (t.pc.applied version) t.operations t.responses
      tail := by
  obtain ⟨tail, hbatch⟩ := h n t version ht hv hreserved
  refine ⟨tail, hbatch.frame hlabel (log_grows hu hu' hc hc' hstep hlog) (fun i j hij hj ↦ ?_)
    fun i entry hi ↦ ?_⟩
  · exact (hu.log_dom i).mpr (hij.trans ((hu.log_dom j).mp hj))
  · rcases hlog i entry hi with hold | ⟨tail', operations, hreserve, _⟩
    · exact .inl hold
    · refine .inr ?_
      rintro rfl
      exact hlabel tail' operations hreserve

/-- Every access of a combiner thread keeps the places of the batches. -/
theorem Served.combiner (h : Served labels c u) (hu : UnboundedLog.Inv u)
    (hb : CyclicBuffer.Inv b) (hc : Coupled c u b) (hu' : UnboundedLog.Inv u')
    (hb' : CyclicBuffer.Inv b') (hc' : Coupled c' u' b') (ht : c.threads n = some t)
    (hstep : CombinerStep n t c label c') (hlog : LogExtends label u.log u'.log) :
    Served (labels ++ [label]) c' u' := by
  have hnext : Next c label c' := .combiner n t ht hstep
  intro m t' version' ht' hv' hreserved'
  by_cases hm : m = n
  · subst hm
    obtain ⟨t'', ht'', _, hops⟩ := hstep.frame.thread
    obtain rfl : t'' = t' := Option.some.inj (ht''.symm.trans ht')
    obtain ⟨version, hversion⟩ : ∃ version, u.localVersions m = some version := by
      obtain ⟨phase, _, hphase, _⟩ := hc.exists_phases hu hb ht
      exact hu.exists_version hphase
    have hv : c.localVersions m = some version := hc.shared.localVersions ▸ hversion
    have hcases := hstep.applied_cases hu hb hc ht ht' hreserved' hv hv'
    rcases (hstep.reserved_cases ht').2 hreserved' with hreserved | ⟨_, tail, rfl⟩
    · obtain ⟨tail, hbatch⟩ := h.others hu hu' hc hc' hnext hlog ht hv hreserved (by
        rintro tail operations rfl
        obtain ⟨_, _, _, _, hpc⟩ := hstep.reserve_eq
        rw [hpc] at hreserved
        exact hreserved)
      refine ⟨tail, ?_⟩
      rw [hops]
      rcases hcases with
        ⟨hresponses, happlied⟩ |
          ⟨ret, cur, globalTail, entry, view, hpc, hentry, hdata, hresponses, happlied⟩
      · rw [hresponses, happlied]
        exact hbatch
      · obtain ⟨hcur, rfl⟩ := data_of_dispatch hu hb hc ht hpc hentry hdata
        have hcurrent : t.pc.applied version = cur := by
          rw [hpc]
          rfl
        rw [hcurrent] at hbatch
        -- the access reads the entry from the log it leaves as it is
        have hkept := fun i ↦ log_grows hu hu' hc hc' hnext hlog i
        have hdispatch := hbatch.dispatch ((hkept cur ⟨_, hcur⟩).trans hcur)
        rw [computeNrstate_congr fun i hi ↦ hkept i ((hu.log_dom i).mpr
          (hi.trans ((hu.log_dom cur).mp ⟨_, hcur⟩)))] at hdispatch
        rw [hresponses, happlied]
        exact hdispatch
    · refine ⟨tail, ?_⟩
      have hbatch : BatchAt (labels ++ [_]) u'.log m _ _ _ _ :=
        .reserve hu hb hc hu' hb' hc' ht hlog hstep ht' hv
      obtain ⟨_, _, _, advance, hpc⟩ := hstep.reserve_eq
      rcases hcases with
        ⟨hresponses, happlied⟩ | ⟨ret, cur, globalTail, entry, view, hpc', _⟩
      · rw [hops, hresponses, happlied, hpc]
        exact hbatch
      · cases hpc.symm.trans hpc'
  · rw [(hstep.frame.others m hm).1] at ht'
    rw [hstep.localVersions_eq hm] at hv'
    refine h.others hu hu' hc hc' hnext hlog ht' hv' hreserved' ?_
    rintro tail operations rfl
    exact hm hstep.reserve_eq.1

/-- Every step keeps the places of the batches. -/
theorem Served.next (h : Served labels c u) (hu : UnboundedLog.Inv u)
    (hb : CyclicBuffer.Inv b) (hc : Coupled c u b) (hu' : UnboundedLog.Inv u')
    (hb' : CyclicBuffer.Inv b') (hc' : Coupled c' u' b') (hstep : Next c label c')
    (hlog : LogExtends label u.log u'.log) : Served (labels ++ [label]) c' u' := by
  have hothers : ∀ {m t' version'}, c.threads m = some t' → c.localVersions m = some version' →
      t'.pc.Reserved → (∀ tail operations, label ≠ .reserve m tail operations) →
      ∃ tail, BatchAt (labels ++ [label]) u'.log m (t'.pc.applied version') t'.operations
        t'.responses tail :=
    fun ht hv hreserved hlabel ↦ h.others hu hu' hc hc' hstep hlog ht hv hreserved hlabel
  cases hstep with
  | combiner n t ht hstep => exact h.combiner hu hb hc hu' hb' hc' ht hstep hlog
  | reader rid hstep =>
    intro m t' version' ht' hv' hreserved
    cases hstep <;> exact hothers ht' hv' hreserved (by simp)
  | collect n t requestIds operations ht hpc =>
    intro m t' version' ht' hv' hreserved
    rcases (PMap.insert_eq_some _ _ _ _ _).mp ht' with ⟨_, rfl⟩ | ⟨_, hold⟩
    · exact hreserved.elim
    · exact hothers hold hv' hreserved (by simp)
  | callExecute n t ht hpc =>
    intro m t' version' ht' hv' hreserved
    rcases (PMap.insert_eq_some _ _ _ _ _).mp ht' with ⟨rfl, rfl⟩ | ⟨_, hold⟩
    · -- no batch, and the node has no entry left
      obtain ⟨phase, buffer, hphase, _, hcoupled⟩ := hc.exists_phases hu hb ht
      simp only [Thread.Coupled, hpc] at hcoupled
      obtain ⟨rfl, _⟩ := hcoupled
      change c.localVersions m = _ at hv'
      rw [← hc.shared.localVersions] at hv'
      refine ⟨0, fun hne ↦ absurd rfl hne, by simp, fun i entry hi hnode hle ↦ ?_,
        List.take_nil.symm⟩
      rcases hlog i entry hi with hold | ⟨_, _, hreserve, _⟩
      · exact absurd hnode (nodeId_ne_of_ready hu hphase hv' i entry hold hle)
      · cases hreserve
    · exact hothers hold hv' hreserved (by simp)
  | distribute n t ht hpc =>
    intro m t' version' ht' hv' hreserved
    rcases (PMap.insert_eq_some _ _ _ _ _).mp ht' with ⟨_, rfl⟩ | ⟨_, hold⟩
    · exact hreserved.elim
    · exact hothers hold hv' hreserved (by simp)
  | _ => exact fun m t' version' ht' hv' hreserved ↦ hothers ht' hv' hreserved (by simp)

/-- Every run ends in a state whose batches have their places in the log as it was written. -/
theorem served_of_run {c₀ : State DT} (hinit : (machine DT).init c₀)
    (hrun : (machine DT).Run c₀ labels c) :
    ∃ u, Implements c u ∧ Placed labels c u ∧ Served labels c u := by
  obtain ⟨numReplicas, hpos, rfl⟩ := hinit
  have hstart : ∃ u, Implements (initialState DT numReplicas) u ∧
      Placed [] (initialState DT numReplicas) u ∧ Served [] (initialState DT numReplicas) u := by
    refine ⟨_, implements_initialState hpos, ⟨.nil, by simp, by simp [UnboundedLog.initialState]⟩,
      fun n t version ht _ hreserved ↦ ?_⟩
    simp only [initialState] at ht
    split at ht
    · cases ht
      exact hreserved.elim
    · cases ht
  refine hrun.history (I := fun labels c ↦ ∃ u, Implements c u ∧ Placed labels c u ∧
    Served labels c u) ?_ hstart
  rintro labels c label c' ⟨u, ⟨hu, b, hb, hc⟩, hplaced, hserved⟩ hstep
  have hui := UnboundedLog.inv_of_reachable hu
  have hbi := CyclicBuffer.inv_of_reachable hb
  obtain ⟨ms, u', ls, b', hrun, _, hrun', hc', hlog, _⟩ := hc.next hui hbi hstep
  have hu' := hu.run hrun
  have hb' := hb.run hrun'
  exact ⟨u', ⟨hu', b', hb', hc'⟩, hplaced.next hstep hlog,
    hserved.next hui hbi hc (UnboundedLog.inv_of_reachable hu')
      (CyclicBuffer.inv_of_reachable hb') hc' hstep hlog⟩

end Steps

/-! ## Calls of `execute` -/

section Calls

variable {c c' : State DT} {n : NodeId} {t : Thread DT} {label : Label DT} {ret : Return}

private theorem nodeId_ne_of_append {u : UnboundedLog.State DT} {b : CyclicBuffer.State DT}
    (hu : UnboundedLog.Inv u) (hb : CyclicBuffer.Inv b) (hc : Coupled c u b)
    (ht : c.threads n = some t) {cur globalTail : Nat}
    (hpc : t.pc = .executeDispatch .append cur globalTail)
    {entry : UnboundedLog.LogEntry DT} (hentry : u.log cur = some entry) : entry.nodeId ≠ n := by
  intro hnode
  obtain ⟨phase, buffer, hphase, _, hcoupled⟩ := hc.exists_phases hu hb ht
  simp only [Thread.Coupled, hpc] at hcoupled
  obtain ⟨hlt, _, queue, idx, rfl, hqueue⟩ := hcoupled
  rcases hqueue with ⟨hne, _⟩ | ⟨rfl, _⟩
  · exact hne rfl
  · obtain ⟨rid, op, hget, _⟩ := hu.next_placed hphase hentry hlt hnode
    cases hget

/-- A call of `execute` made while the batch is not in the log or is answered goes on without
touching the responses. -/
theorem Next.responses_eq (hreach : (machine DT).Reachable c) (hstep : Next c label c')
    (ht : c.threads n = some t) (hexec : t.pc.Executing ret)
    (hcall : ret = .append ∨ t.responses.length = t.operations.length) :
    ∃ t', c'.threads n = some t' ∧ t'.responses = t.responses ∧ t'.operations = t.operations := by
  obtain ⟨c₀, labels, hinit, hrun⟩ := hreach
  obtain ⟨u, ⟨hu, b, hb, hc⟩, _, hserved⟩ := served_of_run hinit hrun
  have hui := UnboundedLog.inv_of_reachable hu
  have hbi := CyclicBuffer.inv_of_reachable hb
  rcases hstep.thread_cases ht with hsame | hidle | hfinished | haccess
  · exact ⟨t, hsame, rfl, rfl⟩
  · rw [hidle] at hexec
    exact hexec.elim
  · rw [hfinished] at hexec
    exact hexec.elim
  · cases haccess with
    | dispatch ret' cur globalTail entry view hpc hentry hdata =>
      refine ⟨_, PMap.insert_self _ _ _, ?_, rfl⟩
      obtain ⟨hcur, _⟩ := data_of_dispatch hui hbi hc ht hpc hentry hdata
      suffices hne : entry.nodeId ≠ n from if_neg hne
      rw [hpc] at hexec
      obtain rfl : ret' = ret := hexec
      by_cases happend : ret' = .append
      · subst happend
        exact nodeId_ne_of_append hui hbi hc ht hpc hcur
      · obtain ⟨version, hv⟩ : ∃ version, u.localVersions n = some version := by
          obtain ⟨phase, _, hphase, _⟩ := hc.exists_phases hui hbi ht
          exact hui.exists_version hphase
        obtain ⟨tail, hbatch⟩ := hserved n t version ht (hc.shared.localVersions ▸ hv)
          (by rw [hpc]; exact happend)
        have hcurrent : t.pc.applied version = cur := by
          rw [hpc]
          rfl
        rw [hcurrent] at hbatch
        exact hbatch.nodeId_ne_of_answered (hcall.resolve_left happend) hcur
    | _ => exact ⟨_, PMap.insert_self _ _ _, rfl, rfl⟩

/-- Such a call ends with the responses it started with, and so it does at every access. -/
theorem responses_eq_of_call (hreach : (machine DT).Reachable c) (ht : c.threads n = some t)
    (hcall : ret = .append ∨ t.responses.length = t.operations.length) {labels : List (Label DT)}
    (hrun : ((machine DT).restrict (InExecute n ret)).Run c labels c') :
    ∃ t', c'.threads n = some t' ∧ t'.responses = t.responses := by
  induction hrun generalizing t with
  | nil c => exact ⟨t, ht, rfl⟩
  | cons hstep _ ih =>
    obtain ⟨hnext, s, hs, hexec⟩ := hstep
    obtain rfl : s = t := Option.some.inj (hs.symm.trans ht)
    obtain ⟨t', ht', hresponses, hops⟩ := hnext.responses_eq hreach ht hexec hcall
    obtain ⟨t'', ht'', hresponses'⟩ := ih (hreach.step hnext) ht' (by rwa [hresponses, hops])
    exact ⟨t'', ht'', hresponses'.trans hresponses⟩

end Calls

/-- In every run, a combiner thread that returns from `append` and `execute` has one response for
each operation of its batch, in the order of the batch: the one at the index of the log that the
reservation of the batch gave the operation, and equal to its sequential result there. Every
call of `execute` made before the batch is in the log, and every call made when the batch is
answered, goes on and ends with the responses it started with. -/
theorem append_execute_answers_batch {c₀ c : State DT} {labels : List (Label DT)}
    (hinit : (machine DT).init c₀) (hrun : (machine DT).Run c₀ labels c) {n : NodeId}
    {t : Thread DT} (ht : c.threads n = some t) :
    (t.pc = .finished → ∃ u tail, Implements c u ∧ Placed labels c u ∧
      (t.operations ≠ [] → LastReserved labels n tail t.operations) ∧
      t.operations.length ≤ maxRequests ∧ t.responses.length = t.operations.length ∧
      ∀ j op, t.operations[j]? = some op → u.log (tail + j) = some ⟨op, n⟩ ∧
        t.responses[j]? =
          some (DT.dispatchMutSpec (UnboundedLog.computeNrstate u.log (tail + j)) op).2) ∧
    ∀ ret, t.pc = .executeLoadLocal ret →
      t.pc.Reserving ∨ t.responses.length = t.operations.length →
      ∀ ls c', ((machine DT).restrict (InExecute n ret)).Run c ls c' →
        ∃ t', c'.threads n = some t' ∧ t'.responses = t.responses := by
  refine ⟨fun hpc ↦ ?_, fun ret hpc hcall ls c' hcallRun ↦ ?_⟩
  swap
  · rw [hpc] at hcall
    exact responses_eq_of_call ⟨c₀, labels, hinit, hrun⟩ ht hcall hcallRun
  obtain ⟨u, himplements, hplaced, hserved⟩ := served_of_run hinit hrun
  have ⟨hu, b, hb, hc⟩ := himplements
  have hui := UnboundedLog.inv_of_reachable hu
  obtain ⟨phase, buffer, hphase, _, hcoupled⟩ :=
    hc.exists_phases hui (CyclicBuffer.inv_of_reachable hb) ht
  simp only [Thread.Coupled, hpc] at hcoupled
  obtain ⟨rfl, _, _⟩ := hcoupled
  obtain ⟨version, hversion⟩ := hui.exists_version hphase
  obtain ⟨tail, hbatch⟩ := hserved n t version ht (hc.shared.localVersions ▸ hversion)
    (by rw [hpc]; trivial)
  rw [hpc] at hbatch
  have hresponses := hbatch.responses_eq (nodeId_ne_of_ready hui hphase hversion)
  refine ⟨u, tail, himplements, hplaced, hbatch.reserved, hc.shared.operations_le n t ht, ?_,
    fun j op hop ↦ ⟨hbatch.logged j op hop, ?_⟩⟩
  · rw [hresponses, length_batchResults]
  · rw [hresponses, getElem?_batchResults hop]

-- three requests wait, and the combiner of the second replica has one of them
private def requested : State counter :=
  { initialState counter 2 with
    tickets := collect ((((PMap.empty : PMap ReqId (Ticket counter)).insert 6
      (.pending (5 : Nat))).insert 7 (.pending (7 : Nat))).insert 8 (.pending (9 : Nat))) 1
      [6] }.setThread 1
    ⟨.appendLoadTail, [6], [(5 : Nat)], []⟩

private theorem run_requested : (machine counter).Run (initialState counter 2)
    [.start 6 (.write (5 : Nat)), .start 7 (.write (7 : Nat)), .start 8 (.write (9 : Nat)),
      .internal] requested := by
  refine .cons (.startWrite 6 _ rfl rfl) ?_
  refine .cons (.startWrite 7 _ rfl rfl) ?_
  refine .cons (.startWrite 8 _ rfl rfl) ?_
  exact .single (@Next.collect counter _ 1 _ [6] [(5 : Nat)] rfl rfl (by decide) (by decide)
    (.cons rfl .nil))

/-- One replica appends a request, and another one then appends two: it applies all three and has
the responses to its own. -/
theorem append_execute_answers_batch_two :
    ∃ (labels : List (Label counter)) (c : State counter) (t : Thread counter),
      (machine counter).Run (initialState counter 2) labels c ∧ c.threads 0 = some t ∧
      t.pc = .finished ∧ t.operations = [(7 : Nat), (9 : Nat)] ∧
      t.responses = [(5 : Nat), (12 : Nat)] ∧
      ∃ u tail, Implements c u ∧ Placed labels c u ∧
        (t.operations ≠ [] → LastReserved labels 0 tail t.operations) ∧
        t.operations.length ≤ maxRequests ∧ t.responses.length = t.operations.length ∧
        ∀ j op, t.operations[j]? = some op → u.log (tail + j) = some ⟨op, 0⟩ ∧
          t.responses[j]? =
            some (counter.dispatchMutSpec (UnboundedLog.computeNrstate u.log (tail + j)) op).2 := by
  obtain ⟨_, c₁, hother, hheld, hc₁⟩ := exists_run_append_execute (c := requested) (n := 1) []
    (t := ⟨.appendLoadTail, [6], [(5 : Nat)], []⟩) ⟨rfl, fun _ _ hi ↦ by cases hi⟩
    rfl rfl (List.cons_ne_nil _ _) (show 1 ≤ logSize - gcFromHead by decide)
    rfl (Nat.le_refl 0) rfl
  have hidle : c₁.threads 0 = some (.idle counter) := by rw [hc₁]; rfl
  have hdata : c₁.data 0 = some (0 : Nat) := by rw [hc₁]; rfl
  have hversion : c₁.localVersions 0 = some 0 := by rw [hc₁]; rfl
  have hticket : c₁.tickets 7 = some (.pending (7 : Nat)) := by rw [hc₁]; rfl
  have hticket' : c₁.tickets 8 = some (.pending (9 : Nat)) := by rw [hc₁]; rfl
  have hcollect : Next c₁ .internal _ := .collect 0 _ [7, 8] [(7 : Nat), (9 : Nat)] hidle rfl
    (by decide) (by decide) (.cons hticket (.cons hticket' .nil))
  have hbatch := (run_requested.append (run_of_combiner hother)).append (.single hcollect)
  have hfirst : Holds c₁ [⟨(5 : Nat), 1⟩] := hheld
  obtain ⟨_, c₂, hown, _, hc₂⟩ := exists_run_append_execute (n := 0)
    (c := { c₁ with tickets := collect c₁.tickets 0 [7, 8] }.setThread 0 _)
    (t := ⟨.appendLoadTail, [7, 8], [(7 : Nat), (9 : Nat)], []⟩) [⟨(5 : Nat), 1⟩]
    ⟨hfirst.tail, hfirst.slots⟩ rfl rfl (List.cons_ne_nil _ _)
    (show 3 ≤ logSize - gcFromHead by decide) hversion (Nat.zero_le _) hdata
  have hrun := hbatch.append (run_of_combiner hown)
  have ht : c₂.threads 0 = some ⟨.finished, [7, 8], [(7 : Nat), (9 : Nat)],
      [(5 : Nat), (12 : Nat)]⟩ := by
    rw [hc₂]
    rfl
  exact ⟨_, c₂, _, hrun, ht, rfl, rfl, rfl,
    (append_execute_answers_batch ⟨2, by decide, rfl⟩ hrun ht).1 rfl⟩

end NrLog

end NrKernel.NodeReplication
